import Upciedev.Access.InlineEnd
import Upciedev.Access.WindowConfinement

/-!
# What a transfer comes to

The result of an inline call follows from its arguments, the entry, and what the call is answered:
which user copy fails, and what its registers and the scratch register read as.
-/
namespace Upciedev

open Foundations Program

/-- A word of the stack, a register, whether a BAR is mapped, and whether an element was copied. -/
inductive Heard where
  | word (x : UInt32)
  | register (r : UInt32)
  | mapping (mapped : Bool)
  | copy (copied : Bool)
  deriving DecidableEq, Repr

def heardOf : (op : Op) → op.Res → Option Heard
  | .kernel .uninit, x => some (.word x)
  | .kernel (.ioread _ _), r => some (.register r)
  | .memmoryBase _ _, base => some (.mapping (Option.isSome base))
  | .kernel (.copyFromUser (.data _) _), r => some (.copy (Option.isSome r))
  | .kernel (.copyToUser (.data _) _ _), uncopied => some (.copy (Bool.not uncopied))
  | _, _ => none

def heard (tr : Trace) : List Heard := tr.filterMap fun e => heardOf e.op e.res

@[simp] theorem heard_nil : heard [] = [] := rfl

@[simp] theorem heard_cons (e : Event driverInterface) (tr : Trace) :
    heard (e :: tr) = (heardOf e.op e.res).toList ++ heard tr := by
  unfold heard
  rw [List.filterMap_cons]
  cases heardOf e.op e.res <;> rfl

@[simp] theorem heard_append (tr tr' : Trace) : heard (tr ++ tr') = heard tr ++ heard tr' :=
  List.filterMap_append

def Heard.copied : Heard → Option Bool
  | copy b => some b
  | _ => none

def failingCopy (l : List Heard) : Option ℕ := (l.filterMap Heard.copied).findIdx? (! ·)

/-- The rounds, of `n`, before the one whose copy fails, if a round makes `m` copies. -/
def roundsBefore (n m : ℕ) (l : List Heard) : ℕ :=
  if m = 0 then n else (failingCopy l).elim n (· / m)

section
variable {n m k : ℕ} {p l : List Heard}

theorem failingCopy_append_true (h : p.filterMap Heard.copied = List.replicate k true) :
    failingCopy (p ++ l) = (failingCopy l).map (· + k) := by
  unfold failingCopy
  rw [List.filterMap_append, h, List.findIdx?_append]
  simp

theorem roundsBefore_skip (h : p.filterMap Heard.copied = []) :
    roundsBefore n m (p ++ l) = roundsBefore n m l := by
  have hsame : failingCopy (p ++ l) = failingCopy l := by
    simpa using failingCopy_append_true (k := 0) (l := l) h
  unfold roundsBefore
  rw [hsame]

theorem roundsBefore_round (h : p.filterMap Heard.copied = List.replicate m true) :
    roundsBefore (n + 1) m (p ++ l) = roundsBefore n m l + 1 := by
  unfold roundsBefore
  rw [failingCopy_append_true h]
  split_ifs with hm
  · rfl
  · cases failingCopy l with
    | none => rfl
    | some i => exact Nat.add_div_right i (Nat.pos_of_ne_zero hm)

theorem roundsBefore_failed (h : p.filterMap Heard.copied = List.replicate k true ++ [false])
    (hk : k < m) : roundsBefore n m (p ++ l) = 0 := by
  have hfails : failingCopy (p ++ l) = some k := by
    unfold failingCopy
    rw [List.filterMap_append, h]
    simp [List.findIdx?_cons]
  unfold roundsBefore
  rw [hfails, if_neg (Nat.ne_of_gt (Nat.zero_lt_of_lt hk))]
  exact Nat.div_eq_of_lt hk

end

/-- What a read is to hear next: its word of the stack, a register, which it sees if the word is
`clear`, or what its scratch check asks for. -/
inductive Question where
  | word
  | register (clear : Bool)
  | base
  | tested
  | checkWord
  | scratch (clear : Bool)

/-- A register of the request reads as all ones at its width, and then the scratch BAR is not mapped
or the scratch register reads as all ones, too, each into a word that is clear above the width. -/
def hearsLoss (w scratch : Width) (swapped : Bool) : Question → List Heard → Bool
  | _, [] => false
  | .word, .word x :: l => hearsLoss w scratch swapped (.register (w.Clear x)) l
  | .register clear, .register r :: l =>
      if w.AllOnes r ∧ clear then hearsLoss w scratch swapped .base l
      else hearsLoss w scratch swapped (.register (clear || (w = .w16 && swapped))) l
  | .base, .mapping _ :: l => hearsLoss w scratch swapped .tested l
  | .tested, .mapping mapped :: l => !mapped || hearsLoss w scratch swapped .checkWord l
  | .checkWord, .word y :: l => hearsLoss w scratch swapped (.scratch (scratch.Clear y)) l
  | .scratch clear, .register s :: l =>
      (scratch.AllOnes s && clear) || hearsLoss w scratch swapped (.register true) l
  | q, _ :: l => hearsLoss w scratch swapped q l

def PciedevDev.scratchWidth (v : PciedevDev) : Width := .ofRegSize (UInt16.ofInt v.registerSize)

def PciedevDev.swapped (v : PciedevDev) : Bool := v.swap ≠ 0

theorem PciedevDev.swapped_iff {v : PciedevDev} : v.swapped ↔ v.swap ≠ 0 := decide_eq_true_iff

/-- The constant a scratch register is compared with is all ones at its width. -/
theorem PciedevDev.scratchTest_eq {v : PciedevDev} (hsize : ValidSize v.registerSize) :
    (if v.registerSize = 0 then 0xff else if v.registerSize = 1 then 0xffff else 0xffffffff) =
      v.scratchWidth.low 0xffffffff := by
  obtain hcode | hcode | hcode : v.registerSize = 0 ∨ v.registerSize = 1 ∨ v.registerSize = 2 := by
    have hthree : v.registerSize < 3 := hsize.2
    have hzero := hsize.1
    omega
  all_goals
    rw [scratchWidth, hcode]
    decide

section
variable {owner : File → Entry} {table : Entry → PciedevDev} {dev : Entry}

theorem deviceScrachTest_heard (hsize : ValidSize (table dev).registerSize) :
    (deviceScrachTest dev).Sat (tableAnswers owner table) Op.ReadOnly fun tr test =>
      heard tr = [] ∧ test = (table dev).scratchWidth.low 0xffffffff := by
  rw [← PciedevDev.scratchTest_eq hsize]
  by_cases hbyte : (table dev).registerSize = 0
  · simp [deviceScrachTest, tableAnswers, heardOf, sat_ite, hbyte, Op.ReadOnly, Op.Steady]
  · by_cases hshort : (table dev).registerSize = 1 <;>
      simp [deviceScrachTest, tableAnswers, heardOf, sat_ite, hbyte, hshort, Op.ReadOnly, Op.Steady]

/-- What a scratch check hears, and the result it gives. -/
inductive CheckHears (width : Width) : List Heard → ℤ → Prop
  | unmapped (base : Bool) {result : ℤ} (hresult : result ≠ 0) :
      CheckHears width [.mapping base, .mapping false] result
  | mapped (base : Bool) (y s : UInt32) {result : ℤ}
      (hresult : result ≠ 0 ↔ width.AllOnes s ∧ width.Clear y) :
      CheckHears width [.mapping base, .mapping true, .word y, .register s] result

theorem readScratch_heard (hsize : ValidSize (table dev).registerSize) :
    (readScratch dev).Sat (tableAnswers owner table) Op.ReadOnly fun tr result =>
      CheckHears (table dev).scratchWidth (heard tr) result := by
  have hread : mtcaSimpleRead < mtcaSimpleWrite := by decide
  have hplain : ¬ mtcaSimpleRead = mtReadToExtraBuffer := by decide
  simp only [readScratch, perform_eq, call_bind, ret_bind, pure_eq, readWritePrivate_eq hread,
    if_neg hplain]
  refine ⟨trivial, fun v hv => ⟨trivial, fun base _ => ⟨trivial, fun _ _ => ⟨trivial, fun v' hv' =>
    ⟨trivial, fun tested _ => (sat_ite ..).mpr ⟨fun hnone => ?_, fun hmapped => ?_⟩⟩⟩⟩⟩⟩
  · obtain rfl : tested = none := hnone
    exact .unmapped _ one_ne_zero
  · obtain ⟨x, rfl⟩ := Option.ne_none_iff_exists'.mp hmapped
    refine (sat_bind ..).mpr ((deviceScrachTest_heard hsize).imp fun tr test hpost => ?_)
    obtain ⟨htr, rfl⟩ := hpost
    refine ⟨trivial, fun v hv =>
      ⟨trivial, fun y _ => ⟨trivial, fun _ _ => ⟨trivial, fun s _ => ?_⟩⟩⟩⟩
    obtain rfl : v = table dev := hv
    have hhears (result : ℤ) (hresult : result ≠ 0 ↔ (table dev).scratchWidth.AllOnes s ∧
        (table dev).scratchWidth.Clear y) := CheckHears.mapped (Option.isSome base) y s hresult
    rw [← Width.setLow_eq_iff] at hhears
    refine (sat_ite ..).mpr ⟨fun hones => ?_, fun hother => ?_⟩
    · simpa [htr, heardOf] using hhears 1 (iff_of_true one_ne_zero hones)
    · simpa [htr, heardOf] using hhears 0 (iff_of_false (by simp) hother)

theorem pciedevCheckScratch_heard (hsize : ValidSize (table dev).registerSize) :
    (pciedevCheckScratch dev).Sat (tableAnswers owner table) Op.ReadOnly fun tr result =>
      CheckHears (table dev).scratchWidth (heard tr) result := by
  simp only [pciedevCheckScratch, perform_eq, call_bind, ret_bind, pure_eq]
  refine ⟨trivial, fun _ _ =>
    (sat_bind ..).mpr ((readScratch_heard hsize).imp fun tr result hpost => ?_)⟩
  refine ⟨trivial, fun _ _ => ?_⟩
  simpa [heardOf] using hpost

end

def InlineCall.copiesPerRound (c : InlineCall) : Direction → ℕ
  | .read => if c.userData ≠ 0 then 1 else 0
  | .write => (if c.userData ≠ 0 then 1 else 0) + if c.userMask ≠ 0 then 1 else 0

/-- What a read loop of at most `n` rounds adds up to, with an error if the board was lost. -/
def InlineCall.readResult (c : InlineCall) (v : PciedevDev) (u : UInt32) (n : ℕ) (retval : ℤ)
    (clear : Bool) (l : List Heard) : ℤ :=
  if hearsLoss (.ofRegSize c.registerSize) v.scratchWidth v.swapped (.register clear) l then eNoMem
  else retval + roundsBefore n (c.copiesPerRound .read) l * u.toNat

section
variable {owner : File → Entry} {table : Entry → PciedevDev}

theorem copyOut_heard (c : InlineCall) (u : UInt32) (dst : UInt64) (x : UInt32) :
    (if c.userData ≠ 0 then copyToUser (.data u) dst x else
      pure false).Sat (tableAnswers owner table)
      Op.ReadOnly fun tr uncopied => heard tr = (if c.userData ≠ 0 then [.copy !uncopied] else []) ∧
        (uncopied = true → c.userData ≠ 0) := by
  refine (sat_ite ..).mpr ⟨fun hgiven => ?_, fun hnull => ?_⟩
  · exact ⟨trivial, fun uncopied _ => by simp [heardOf, hgiven]⟩
  · simp [hnull]

theorem InlineCall.readResult_round (c : InlineCall) (v : PciedevDev) (u : UInt32) (n : ℕ)
    (retval : ℤ) (clear : Bool) (l : List Heard) :
    c.readResult v u (n + 1) retval clear ((if c.userData ≠ 0 then [.copy true] else []) ++ l) =
      c.readResult v u n (retval + u.toNat) clear l := by
  have hround := roundsBefore_round (n := n) (m := c.copiesPerRound .read) (l := l)
    (p := if c.userData ≠ 0 then [.copy true] else []) (by
      unfold copiesPerRound
      split_ifs <;> rfl)
  have hloss : hearsLoss (.ofRegSize c.registerSize) v.scratchWidth v.swapped (.register clear)
      ((if c.userData ≠ 0 then [.copy true] else []) ++ l) =
        hearsLoss (.ofRegSize c.registerSize) v.scratchWidth v.swapped (.register clear) l := by
    split_ifs <;> simp [hearsLoss]
  unfold readResult
  rw [hround, hloss]
  split_ifs
  · rfl
  · push_cast
    ring

theorem heard_register {c : InlineCall} {u word : UInt32} {n : ℕ} {retval : ℤ} {a : IoAddr}
    (hsize : ValidSize (table c.dev).registerSize)
    {f : UInt32 → ℤ → Kernel ℤ} (hfailed : ∀ r failed, failed ≠ 0 → f r failed = ret eNoMem)
    (hf : ∀ r, (f r 0).Sat (tableAnswers owner table) Op.ReadOnly fun tr result => ∀ clear : Bool,
      (clear ↔ (Width.ofRegSize c.registerSize).Clear word ∨
        Width.ofRegSize c.registerSize = .w16 ∧ (table c.dev).swap ≠ 0) →
      result = c.readResult (table c.dev) u n retval clear (heard tr)) :
    (Program.call (I := driverInterface) (.kernel (.ioread (.ofRegSize c.registerSize) a)) fun r =>
      (if (Width.ofRegSize c.registerSize).AllOnes r ∧
        (Width.ofRegSize c.registerSize).Clear word then
        pciedevCheckScratch c.dev else pure 0) >>= f r).Sat (tableAnswers owner table) Op.ReadOnly
      fun tr result => ∀ clear : Bool, (clear ↔ (Width.ofRegSize c.registerSize).Clear word) →
        result = c.readResult (table c.dev) u n retval clear (heard tr) := by
  refine (sat_call ..).mpr ⟨trivial, fun r _ => ?_⟩
  split_ifs with hones
  · refine (sat_bind ..).mpr ((pciedevCheckScratch_heard hsize).imp fun tr failed hhears => ?_)
    generalize hl : heard tr = l at hhears
    by_cases hzero : failed = 0
    · subst hzero
      apply (hf r).imp
      intro tr' result hresult clear hclear
      have hclear' : clear = true := hclear.mpr hones.2
      cases hhears with
      | unmapped base hne => exact absurd rfl hne
      | mapped base y s hlost =>
        have hnone :
            ¬ ((table c.dev).scratchWidth.AllOnes s ∧ (table c.dev).scratchWidth.Clear y) :=
          fun h => hlost.mpr h rfl
        have hskip := roundsBefore_skip (n := n) (m := c.copiesPerRound .read) (l := heard tr')
          (p := [.register r, .mapping base, .mapping true, .word y, .register s]) rfl
        rw [hresult true (iff_of_true rfl (.inl hones.2))]
        simp only [List.cons_append, List.nil_append] at hskip
        simp [InlineCall.readResult, heardOf, hl, hearsLoss, hones.1, hclear', hnone, hskip]
    · rw [hfailed r failed hzero]
      intro clear hclear
      have hclear' : clear = true := hclear.mpr hones.2
      cases hhears with
      | unmapped base =>
        simp [InlineCall.readResult, heardOf, hl, hearsLoss, hones.1, hclear']
      | mapped base y s hlost =>
        obtain ⟨hs, hy⟩ := hlost.mp hzero
        simp [InlineCall.readResult, heardOf, hl, hearsLoss, hones.1, hclear', hs, hy]
  · apply Sat.imp (hf r)
    intro tr result hresult clear hclear
    have hnone : ¬ ((Width.ofRegSize c.registerSize).AllOnes r ∧ clear = true) :=
      fun h => hones ⟨h.1, hclear.mp h.2⟩
    have hskip := roundsBefore_skip (n := n) (m := c.copiesPerRound .read) (l := heard tr)
      (p := [.register r]) rfl
    simp only [List.cons_append, List.nil_append] at hskip
    rw [hresult (clear || (Width.ofRegSize c.registerSize = .w16 && (table c.dev).swapped))
      (by simp [hclear, PciedevDev.swapped_iff])]
    simp [InlineCall.readResult, heardOf, hearsLoss, hnone, hskip]

theorem readLoop_result {c : InlineCall} (hmode : c.rwAccessMode < mtcaSimpleWrite)
    (hsize : ValidSize (table c.dev).registerSize) {u : UInt32} (hu : WidthAgrees c u) (n : ℕ)
    (pcUserBuf : UInt64) (a : IoAddr) (word : UInt32) (retval : ℤ) :
    (readLoop c u n pcUserBuf a word retval).Sat (tableAnswers owner table) Op.ReadOnly
      fun tr result => ∀ clear : Bool, (clear ↔ (Width.ofRegSize c.registerSize).Clear word) →
        result = c.readResult (table c.dev) u n retval clear (heard tr) := by
  induction n generalizing pcUserBuf a word retval with
  | zero =>
    apply (sat_ret ..).mpr
    intro clear _
    simp [InlineCall.readResult, hearsLoss, roundsBefore, failingCopy]
  | succ n ih =>
    unfold readLoop
    rw [readWritePrivate_eq hmode]
    simp only [perform_eq, call_bind, ret_bind, readWord_eq, scrachTestOf_eq hu,
      Width.setLow_eq_iff]
    refine ⟨trivial, fun _ _ => ?_⟩
    apply heard_register hsize (fun r failed hfailed => if_pos hfailed)
    intro r
    refine (sat_ite ..).mpr ⟨fun h => absurd rfl h, fun _ => ⟨trivial, fun v hv => ?_⟩⟩
    obtain rfl : v = table c.dev := hv
    refine (sat_bind ..).mpr ((copyOut_heard c u _ _).imp fun tr uncopied hpost => ?_)
    obtain ⟨htr, hgiven⟩ := hpost
    refine (sat_ite ..).mpr ⟨fun hlost => ?_, fun hkept => ?_⟩
    · have hcopies : 0 < c.copiesPerRound .read := by simp [InlineCall.copiesPerRound, hgiven hlost]
      have hzero := roundsBefore_failed (n := n + 1) (p := [.copy false]) (l := []) rfl hcopies
      intro clear _
      simp only [List.append_nil] at hzero
      simp [InlineCall.readResult, heardOf, htr, hlost, hgiven hlost, hearsLoss, hzero]
    · apply Sat.imp (ih _ _ _ _)
      intro tr' result hresult clear hclear
      rw [hresult
        clear (hclear.trans (Width.clear_clientView hu).symm), ← InlineCall.readResult_round]
      simp [heardOf, htr, hkept]

theorem copyWord_heard (given : UInt64) (u : UInt32) (src : UInt64) (word : UInt32) :
    (copyWord given u src word).Sat (tableAnswers owner table) Op.ReadOnly fun tr copied =>
      heard tr = (if given ≠ 0 then [.copy copied.isSome] else []) ∧
        (copied = none → given ≠ 0) := by
  simp only [copyWord, perform_eq, call_bind, ret_bind]
  refine (sat_ite ..).mpr ⟨fun hnull => ?_, fun hgiven => ?_⟩
  · simp [hnull]
  · exact ⟨trivial, fun r _ => by simp [heardOf, hgiven]⟩

theorem readWritePrivate_heard (regSize accessMode : UInt16) (a : IoAddr)
    (value mask extra : UInt32) :
    (readWritePrivate regSize accessMode a value mask extra).Sat
      (tableAnswers owner table) Op.ReadOnly
      fun tr _ => (heard tr).filterMap Heard.copied = [] := by
  simp [readWritePrivate, accessRegister, sat_ite, heardOf, Heard.copied, Op.ReadOnly, Op.Steady]

theorem writeLoop_result (c : InlineCall) (u : UInt32) (n : ℕ) (pcUserData pcUserMask : UInt64)
    (a : IoAddr) (tmpDataForRw tmpMaskForW : UInt32) (retval : ℤ) :
    (writeLoop c u n pcUserData pcUserMask a tmpDataForRw tmpMaskForW retval).Sat
      (tableAnswers owner table) Op.ReadOnly fun tr result =>
        result = retval + roundsBefore n (c.copiesPerRound .write) (heard tr) * u.toNat := by
  induction n generalizing pcUserData pcUserMask a tmpDataForRw tmpMaskForW retval with
  | zero =>
    apply (sat_ret ..).mpr
    simp [roundsBefore, failingCopy]
  | succ n ih =>
    unfold writeLoop
    refine (sat_bind ..).mpr ((copyWord_heard ..).imp fun tr₁ data hpost => ?_)
    obtain ⟨h₁, hdata⟩ := hpost
    cases data with
    | none =>
      have hgiven := hdata rfl
      have hcopies : 0 < c.copiesPerRound .write := by simp [InlineCall.copiesPerRound, hgiven]
      have hzero := roundsBefore_failed (n := n + 1) (p := heard tr₁) (l := []) (k := 0)
        (by simp [h₁, hgiven, Heard.copied]) hcopies
      apply (sat_ret ..).mpr
      rw [List.append_nil] at hzero
      simp [hzero]
    | some data =>
      refine (sat_bind ..).mpr ((copyWord_heard ..).imp fun tr₂ mask hpost => ?_)
      obtain ⟨h₂, hmask⟩ := hpost
      cases mask with
      | none =>
        have hgiven := hmask rfl
        have hcopies : (if c.userData ≠ 0 then 1 else 0) < c.copiesPerRound .write := by
          simp [InlineCall.copiesPerRound, hgiven]
        have hzero := roundsBefore_failed (n := n + 1) (p := heard tr₁ ++ heard tr₂) (l := [])
          (by
            rw [h₁, h₂, if_pos hgiven]
            split_ifs <;> rfl) hcopies
        apply (sat_ret ..).mpr
        rw [List.append_nil] at hzero
        simp [hzero]
      | some mask =>
        simp only [perform_eq, call_bind, ret_bind]
        refine ⟨trivial, fun v _ => ?_⟩
        refine (sat_bind ..).mpr ((readWritePrivate_heard ..).imp fun tr₃ words h₃ => ?_)
        apply (ih _ _ _ _ _ _).imp
        intro tr₄ result hresult
        have hround := roundsBefore_round (n := n) (m := c.copiesPerRound .write) (l := heard tr₄)
          (p := heard tr₁ ++ heard tr₂ ++ heard tr₃) (by
            rw [List.filterMap_append, h₃, h₁, h₂]
            unfold InlineCall.copiesPerRound
            split_ifs <;> rfl)
        rw [hresult]
        simp [heardOf, ← List.append_assoc, hround]
        ring

end

instance (c : InlineCall) (v : PciedevDev) (bar : Bar) : Decidable (c.Opens v bar) :=
  decidable_of_iff (v.memmoryBase bar ≠ none ∧ (c.width v).toNat ∣ c.offset.toNat)
    ⟨fun h => ⟨h.1, h.2⟩, fun h => ⟨h.1, h.2⟩⟩

/-- What an inline call on an existing BAR comes to, with the answers in `l`: it is refused, its
board is lost, or it moves its registers up to the first copy that fails. -/
def InlineCall.outcome (c : InlineCall) (dir : Direction) (v : PciedevDev) (bar : Bar)
    (l : List Heard) :
    ℤ :=
  if ¬ c.Opens v bar then eFault
  else if dir = .read ∧
    hearsLoss (.ofRegSize c.registerSize) v.scratchWidth v.swapped .word l then eNoMem
  else roundsBefore (c.rounds v bar) (c.copiesPerRound dir) l * (c.width v).toNat

section
variable {owner : File → Entry} {table : Entry → PciedevDev} {dev : Entry}

theorem heard_window {tr : Trace} (htr : ∀ e ∈ tr, WindowOp dev e.op) :
    ∀ x ∈ heard tr, ∃ mapped, x = .mapping mapped := by
  intro x hx
  obtain ⟨⟨op, r⟩, he, hx⟩ := List.mem_filterMap.mp hx
  have hop := htr _ he
  cases op with
  | memmoryBase => exact ⟨_, (Option.some.inj hx).symm⟩
  | load | memBase | memBaseEnd | fault => cases hx
  | _ => exact hop.elim

theorem mappings_skipped {pre l : List Heard} (hpre : ∀ x ∈ pre, ∃ mapped, x = .mapping mapped)
    (w scratch : Width) (swapped : Bool) (n m : ℕ) :
    hearsLoss w scratch swapped .word (pre ++ l) = hearsLoss w scratch swapped .word l ∧
      roundsBefore n m (pre ++ l) = roundsBefore n m l := by
  constructor
  · induction pre with
    | nil => rfl
    | cons x pre ih =>
      obtain ⟨hx, hrest⟩ := List.forall_mem_cons.mp hpre
      obtain ⟨mapped, rfl⟩ := hx
      exact ih hrest
  · refine roundsBefore_skip (List.filterMap_eq_nil_iff.mpr fun x hx => ?_)
    obtain ⟨mapped, rfl⟩ := hpre x hx
    rfl

theorem inline_outcome (dir : Direction) {c : InlineCall} (hdev : c.dev = dev)
    (hsize : ValidSize (table dev).registerSize) (hcode : ValidCode c.registerSize)
    (hmode : dir = .read → c.rwAccessMode < mtcaSimpleWrite) {bar : Bar}
    (hbar : c.bar.toNat = bar.val) :
    (dir.inline c).Sat (tableAnswers owner table) Op.ReadOnly fun tr result =>
      result = c.outcome dir (table dev) bar (heard tr) := by
  subst hdev
  have hmoved : Moved owner table c.dev (openWindow c) _ := openWindow_moved rfl hcode hbar
  have hwindow := hmoved.and_only (openWindow_only c)
  have hnote (r : Unit) : heardOf (.note (dir.note c)) r = none := by cases dir <;> rfl
  rw [dir.inline_eq]
  refine (sat_call ..).mpr ⟨by cases dir <;> trivial, fun r _ => ?_⟩
  simp only [heard_cons, hnote]
  cases dir with
  | read =>
    refine (sat_bind ..).mpr (hwindow.imp fun tr₁ window hpost => ?_)
    obtain ⟨⟨-, -, -, hwindow⟩, htr⟩ := hpost
    have hpre := heard_window htr
    rcases hwindow with ⟨rfl, hclosed⟩ | ⟨hopen, rfl⟩
    · apply (sat_ret ..).mpr
      exact (if_pos hclosed).symm
    · refine ⟨trivial, fun word _ => ?_⟩
      have hu := c.width_agrees hcode (table c.dev)
      apply (readLoop_result (hmode rfl) hsize hu _ _ _ word 0).imp
      intro tr₂ result hresult
      have hskip (n m : ℕ) := mappings_skipped hpre (.ofRegSize c.registerSize)
        (table c.dev).scratchWidth (table c.dev).swapped n m (l := .word word :: heard tr₂)
      have hword (n m : ℕ) :=
        roundsBefore_skip (n := n) (m := m) (p := [.word word]) (l := heard tr₂) rfl
      simp only [List.cons_append, List.nil_append] at hword
      rw [hresult (decide ((Width.ofRegSize c.registerSize).Clear word)) decide_eq_true_iff]
      have hloss := (hskip 0 0).1
      simp [InlineCall.outcome, InlineCall.readResult, InlineCall.rounds, heardOf, hopen, hskip,
        hword, hloss, hearsLoss]
  | write =>
    refine (sat_bind ..).mpr (hwindow.imp fun tr₁ window hpost => ?_)
    obtain ⟨⟨-, -, -, hwindow⟩, htr⟩ := hpost
    have hpre := heard_window htr
    rcases hwindow with ⟨rfl, hclosed⟩ | ⟨hopen, rfl⟩
    · apply (sat_ret ..).mpr
      exact (if_pos hclosed).symm
    · refine ⟨trivial, fun word _ => ?_⟩
      apply (writeLoop_result c _ _ _ _ _ word 0xffffffff 0).imp
      intro tr₂ result hresult
      have hskip (n m : ℕ) := mappings_skipped hpre (.ofRegSize c.registerSize)
        (table c.dev).scratchWidth (table c.dev).swapped n m (l := .word word :: heard tr₂)
      have hword (n m : ℕ) :=
        roundsBefore_skip (n := n) (m := m) (p := [.word word]) (l := heard tr₂) rfl
      simp only [List.cons_append, List.nil_append] at hword
      rw [hresult]
      simp [InlineCall.outcome, InlineCall.rounds, heardOf, hopen, hskip, hword]

end

end Upciedev
