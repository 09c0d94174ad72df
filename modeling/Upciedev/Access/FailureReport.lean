import Upciedev.Access.InlineEnd
import Upciedev.Access.PositionalAccess
import Upciedev.Access.Reachability
import Upciedev.Access.WindowConfinement

/-!
# What read and write report

`pciedev_read_exp` and `pciedev_write_exp` return the size of the request structure whatever
their inline call returned. This is compared with what the inline call moved.
-/
namespace Upciedev

open Foundations Program

namespace Direction

def exp : Direction → File → UInt64 → UInt64 → UInt64 → UInt64 → Kernel ℤ
  | read => pciedevReadExp
  | write => pciedevWriteExp

def accessMode : Direction → UInt16
  | read => mtcaSimpleRead
  | write => mtcaSimpleWrite

def dead : Direction → ℤ
  | read => eNoDev
  | write => eFault

def refused : Direction → ℤ
  | read => eIo
  | write => eFault

theorem exp_eq (dir : Direction) (filp : File) (buf count fPosPtr fPos : UInt64) :
    dir.exp filp buf count fPosPtr fPos =
      accessExp dir dir.accessMode dir.dead dir.refused filp buf count fPosPtr fPos := by
  cases dir <;> rfl

theorem refused_neg (dir : Direction) : dir.refused < 0 := by cases dir <;> decide

theorem accessMode_read {dir : Direction} (h : dir = read) : dir.accessMode < mtcaSimpleWrite := by
  subst h
  decide

end Direction

def positionRequest (dir : Direction) (v : PciedevDev) (dev : Entry) (buf count word : UInt64) :
    InlineCall :=
  { dev, registerSize := correctedSize v (posRegSize word).toNat, rwAccessMode := dir.accessMode
    bar := posBarx word, offset := posOffset word, userData := buf, userMask := 0
    count := count.toNat }

/-- The transfer of one register that a request structure asks for. -/
def DeviceRw.request (reading : DeviceRw) (dir : Direction) (v : PciedevDev) (dev : Entry)
    (buf : UInt64) : InlineCall :=
  { dev, registerSize := correctedSize v reading.registerSize.toNat, rwAccessMode := dir.accessMode
    bar := reading.barxRw, offset := reading.offsetRw, userData := buf + deviceRwDataOffset
    userMask := 0, count := 1 }

/-- The request structure that was copied in a trace. -/
def copiedRequest (tr : Trace) : Option DeviceRw :=
  tr.findSome? fun e =>
    match e.op, e.res with
    | .kernel (.copyFromUser .deviceRw _), r => r
    | _, _ => none

/-- The transfer the caller asks for: by the position, or by the structure in the buffer. -/
def requestOf (dir : Direction) (v : PciedevDev) (dev : Entry) (buf count fPos : UInt64)
    (tr : Trace) :
    Option InlineCall :=
  if fPos ≠ pciedFpos then some (positionRequest dir v dev buf count fPos)
  else (copiedRequest tr).map fun reading => reading.request dir v dev buf

/-- The requested registers, and no others, were moved, from or to the caller's buffer. -/
structure Completed (dir : Direction) (v : PciedevDev) (c : InlineCall) (tr : Trace) : Prop where
  called : inlineNotes tr = [dir.note c]
  moved : ∃ bar : Bar, c.bar.toNat = bar.val ∧ c.Opens v bar ∧
    Consecutive (Cursor.next (c.width v)) (dir.Round c v (c.width v)) (c.start v bar) c.count
      (moves false tr)
  buffer : c.count ≠ 0 → c.userData ≠ 0

/-- Success is reported for completed requests only, and for every other one an error. -/
structure ReportsFailure (dir : Direction) (v : PciedevDev) (request : Option InlineCall)
    (tr : Trace) (retval : ℤ) : Prop where
  success : retval = sizeofDeviceRw → ∃ c ∈ request, Completed dir v c tr
  error : ¬ (∃ c ∈ request, Completed dir v c tr) → retval < 0

/-- The BAR is there and mapped, the offset is aligned, all registers lie in the window and fit
the loop counter, there is a buffer, and neither a copy nor the scratch check fails. -/
structure Fulfillable (v : PciedevDev) (c : InlineCall) (tr : Trace) : Prop where
  window : ∃ bar : Bar, c.bar.toNat = bar.val ∧ c.Opens v bar ∧
    c.count ≤ v.registersAfter bar c.offset.toNat (c.width v).toNat
  counter : c.count ≤ 2 ^ 31
  buffer : c.count ≠ 0 → c.userData ≠ 0
  copies : CopiesSucceed tr
  scratch : ¬ ScratchError c.dev tr

def Move.final : Move → ℕ
  | .stored _ _ _ | .delivered _ _ _ => 1
  | _ => 0

theorem Move.Begun.final_eq {m : Move} (h : m.Begun) : m.final = 0 := by
  cases m <;> first | rfl | exact h.elim

theorem sum_final_begun {l : List Move} (h : ∀ m ∈ l, m.Begun) : (l.map Move.final).sum = 0 := by
  rw [List.sum_eq_zero_iff]
  intro x hx
  obtain ⟨m, hm, rfl⟩ := List.mem_map.mp hx
  exact (h m hm).final_eq

/-- In a plain read or write with a buffer, every round ends with one such move. -/
theorem Direction.sum_final_round {dir : Direction} {c : InlineCall} {v : PciedevDev} {u : UInt32}
    (hmode : c.rwAccessMode = dir.accessMode) (hbuffer : c.userData ≠ 0) {p : Cursor}
    {round : List Move} (h : dir.Round c v u p round) : (round.map Move.final).sum = 1 := by
  cases dir with
  | read =>
    obtain ⟨r, rfl⟩ := h
    simp [hbuffer, Move.final]
  | write =>
    obtain ⟨data, mask, value, regs, -, -, -, hregs, rfl⟩ := h
    have hcopy (src : UInt64) (d : Option UInt32) :
        ((copyMoves src u d).map Move.final).sum = 0 := by
      cases d <;> rfl
    have hwrite : c.rwAccessMode = mtcaSimpleWrite := hmode
    cases hregs with
    | write => simp [hcopy, Move.final]
    | update hother => rw [hwrite] at hother; exact absurd hother (by decide)
    | read hother => exact absurd hwrite hother

theorem Direction.round_clean {dir : Direction} {c : InlineCall} {v : PciedevDev} {u : UInt32}
    {p : Cursor} {round : List Move} (h : dir.Round c v u p round) : ∀ m ∈ round, m ≠ .lost := by
  cases dir with
  | read =>
    obtain ⟨r, rfl⟩ := h
    split_ifs <;> simp
  | write =>
    obtain ⟨data, mask, value, regs, -, -, -, hregs, rfl⟩ := h
    have hcopy (src : UInt64) (d : Option UInt32) : ∀ m ∈ copyMoves src u d, m ≠ .lost := by
      cases d <;> simp [copyMoves]
    have hregister : ∀ m ∈ regs, m ≠ .lost := by cases hregs <;> simp
    intro m hm
    simp only [List.mem_append] at hm
    rcases hm with hm | hm | hm
    · exact hcopy _ _ m hm
    · exact hcopy _ _ m hm
    · exact hregister m hm

section
variable {dir : Direction} {c : InlineCall} {v : PciedevDev} {bar : Bar} {l : List Move}
  {scratch : Prop} {a : ℤ}

/-- All requested registers are moved exactly if the window holds them and nothing fails. -/
theorem TransferEnd.complete_iff {copies : Prop} {Round : Cursor → List Move → Prop} {u : UInt32}
    {p : Cursor} {n count : ℕ} {retval : ℤ} (h : TransferEnd copies Round u p n scratch retval l a)
    (hn : n ≤ count) (hclean : ∀ q round, Round q round → ∀ m ∈ round, m ≠ .lost)
    (hfinal : count ≠ 0 → ∀ q round, Round q round → (round.map Move.final).sum = 1) :
    Consecutive (Cursor.next u) Round p count l ↔ n = count ∧ .lost ∉ l ∧ ¬ scratch := by
  constructor
  · intro hall
    rcases Nat.eq_zero_or_pos count with rfl | hpos
    · obtain rfl := Nat.le_zero.mp hn
      cases h with
      | complete hs hl => exact ⟨rfl, fun hlost => hl.forall_mem hclean _ hlost rfl, hs⟩
      | lost _ _ hk => omega
      | error _ hk => omega
    · have hone := hfinal hpos.ne'
      have hsum := hall.sum_eq hone
      cases h with
      | complete hs hl =>
        rw [hl.sum_eq hone] at hsum
        obtain rfl : n = count := by omega
        exact ⟨rfl, fun hlost => hl.forall_mem hclean _ hlost rfl, hs⟩
      | lost _ hs hk hl hbegun =>
        rw [List.map_append, List.sum_append, hl.sum_eq hone, List.map_append, List.sum_append,
          sum_final_begun hbegun] at hsum
        simp [Move.final] at hsum
        omega
      | error hs hk hl hbegun =>
        rw [List.map_append, List.sum_append, hl.sum_eq hone, sum_final_begun hbegun] at hsum
        omega
  · rintro ⟨rfl, hcopies, hnone⟩
    exact (h.all_rounds hcopies hnone).1

theorem InlineEnd.moved_iff {tr : Trace}
    (h : InlineEnd dir c v bar (moves false tr) (ScratchError c.dev tr) a)
    (hmode : c.rwAccessMode = dir.accessMode) (hbuffer : c.count ≠ 0 → c.userData ≠ 0)
    (hopen : c.Opens v bar) :
    Consecutive (Cursor.next (c.width v)) (dir.Round c v (c.width v)) (c.start v bar) c.count
        (moves false tr) ↔
      c.count ≤ v.registersAfter bar c.offset.toNat (c.width v).toNat ∧ c.count ≤ 2 ^ 31 ∧
        CopiesSucceed tr ∧ ¬ ScratchError c.dev tr := by
  have hle : c.rounds v bar ≤ c.count := by
    unfold InlineCall.rounds loopRounds
    omega
  have hrounds : c.rounds v bar = c.count ↔
      c.count ≤ v.registersAfter bar c.offset.toNat (c.width v).toNat ∧ c.count ≤ 2 ^ 31 := by
    unfold InlineCall.rounds loopRounds
    omega
  rw [(h.of_opens hopen).complete_iff hle (fun _ _ hround => Direction.round_clean hround)
    fun hne _ _ hround => Direction.sum_final_round hmode (hbuffer hne) hround, hrounds, and_assoc]
  rfl

end

/-- Frame operations move nothing, make no inline call and check no scratch register. -/
theorem frameOp_trace {tr : Trace} (h : ∀ e ∈ tr, FrameOp e.op) (dev : Entry) :
    scratchAfter false tr = false ∧ moves false tr = [] ∧ ¬ ScratchError dev tr ∧
      inlineNotes tr = [] := by
  have hstay (op : Op) (hop : FrameOp op) (b : Bool) : inScratchAfter b op = b := by
    cases op <;> first | rfl | exact hop.elim
  have hnone (e : Event driverInterface) (hop : FrameOp e.op) : move e.op e.res = none := by
    obtain ⟨op, r⟩ := e
    cases op with
    | kernel call => cases call with
      | copyFromUser T src => cases T <;> first | rfl | exact hop.elim
      | _ => first | rfl | exact hop.elim
    | _ => rfl
  refine ⟨?_, ?_, fun hscratch => ?_, ?_⟩
  · induction tr with
    | nil => rfl
    | cons e tr ih =>
      obtain ⟨he, htr⟩ := List.forall_mem_cons.mp h
      rw [scratchAfter_cons, hstay _ he]
      exact ih htr
  · induction tr with
    | nil => rfl
    | cons e tr ih =>
      obtain ⟨he, htr⟩ := List.forall_mem_cons.mp h
      simpa [moves, hstay _ he, hnone _ he] using ih htr
  · obtain ⟨e, he, hop⟩ := scratchError_starts hscratch
    exact (hop ▸ h e he : FrameOp (.note .checkScratch))
  · rw [inlineNotes, List.filterMap_eq_nil_iff]
    intro e he
    have hop := h e he
    split
    · next hnote => exact (hnote ▸ hop : FrameOp (.note (.readInline _))).elim
    · next hnote => exact (hnote ▸ hop : FrameOp (.note (.writeInline _))).elim
    · rfl

section
variable {ε : Type} {E : Environment ε} {w w' : World ε} {d : Entry} {filp : File}
  {buf count fPosPtr fPos : UInt64}

/-- A trace of one run of an inline call on entry `v` with frame operations around it. -/
def RunsInline (E : Environment ε) (v : PciedevDev) (dir : Direction) (c : InlineCall)
    (tr : Trace) :
    Prop :=
  ∃ (pre seg post : Trace) (r : ℤ) (w u : World ε), tr = pre ++ (seg ++ post) ∧
    (∀ e ∈ pre, FrameOp e.op) ∧ (∀ e ∈ post, FrameOp e.op) ∧ w.pciedevDevM c.dev = v ∧
    (dir.inline c).Run (driver E) w seg r u

theorem RunsInline.cons {v : PciedevDev} {dir : Direction} {c : InlineCall}
    {e : Event driverInterface} {tr : Trace} (he : FrameOp e.op) (h : RunsInline E v dir c tr) :
    RunsInline E v dir c (e :: tr) := by
  obtain ⟨pre, seg, post, r, w, u, rfl, hpre, hrest⟩ := h
  exact ⟨e :: pre, seg, post, r, w, u, rfl, List.forall_mem_cons.mpr ⟨he, hpre⟩, hrest⟩

theorem RunsInline.facts {v : PciedevDev} {dir : Direction} {c : InlineCall} {tr : Trace}
    (h : RunsInline E v dir c tr) (hcode : ValidCode c.registerSize)
    (hmode : c.rwAccessMode = dir.accessMode) :
    inlineNotes tr = [dir.note c] ∧ ∀ bar : Bar, c.bar.toNat = bar.val →
      ∃ a, InlineEnd dir c v bar (moves false tr) (ScratchError c.dev tr) a := by
  obtain ⟨pre, seg, post, r, w, u, rfl, hpre, hpost, rfl, hrun⟩ := h
  obtain ⟨hcutPre, hmovesPre, hscratchPre, hnotesPre⟩ := frameOp_trace hpre c.dev
  obtain ⟨-, hmovesPost, hscratchPost, hnotesPost⟩ := frameOp_trace hpost c.dev
  constructor
  · rw [inlineNotes_append, inlineNotes_append, hnotesPre, hnotesPost,
      hrun.of_wp (inline_notes dir c)]
    rfl
  · intro bar hbar
    obtain ⟨hcut, hend⟩ := steady_run (inline_moved dir rfl hcode
      (fun hdir => hmode ▸ Direction.accessMode_read hdir) hbar) (fun _ => Op.ReadOnly.steady) hrun
    have hsame : ScratchError c.dev (pre ++ (seg ++ post)) ↔ ScratchError c.dev seg := by
      rw [scratchError_append hcutPre, scratchError_append hcut]
      simp [hscratchPre, hscratchPost]
    refine ⟨r, ?_⟩
    rw [moves_append, moves_append, hcutPre, hcut, hmovesPre, hmovesPost, propext hsame]
    simpa using hend

/-- A request is completed if it is the one of the inline call and can be fulfilled. -/
theorem RunsInline.completed_iff {v : PciedevDev} {dir : Direction} {c : InlineCall} {tr : Trace}
    (h : RunsInline E v dir c tr) (hcode : ValidCode c.registerSize)
    (hmode : c.rwAccessMode = dir.accessMode) (c' : InlineCall) :
    Completed dir v c' tr ↔ c = c' ∧ Fulfillable v c' tr := by
  obtain ⟨hnotes, hends⟩ := h.facts hcode hmode
  constructor
  · intro hdone
    obtain rfl : c = c' := by
      have hcalled := hnotes.symm.trans hdone.called
      rwa [List.singleton_inj, dir.note_inj] at hcalled
    obtain ⟨bar, hbar, hopen, hmoved⟩ := hdone.moved
    obtain ⟨a, hend⟩ := hends bar hbar
    obtain ⟨hwindow, hcounter, hcopies, hscratch⟩ :=
      (hend.moved_iff hmode hdone.buffer hopen).mp hmoved
    exact ⟨rfl, ⟨bar, hbar, hopen, hwindow⟩, hcounter, hdone.buffer, hcopies, hscratch⟩
  · rintro ⟨rfl, hfits⟩
    obtain ⟨bar, hbar, hopen, hwindow⟩ := hfits.window
    obtain ⟨a, hend⟩ := hends bar hbar
    have hmoved := (hend.moved_iff hmode hfits.buffer hopen).mpr
      ⟨hwindow, hfits.counter, hfits.copies, hfits.scratch⟩
    exact ⟨hnotes, ⟨bar, hbar, hopen, hmoved⟩, hfits.buffer⟩

theorem accessRegion_wp (dir : Direction) (dev : Entry) (code : ℕ) {calls : UInt16 → InlineCall}
    (hdev : ∀ regSize, (calls regSize).dev = dev) :
    (accessRegion dir dev code calls).wp (driver E) w fun tr a _ => a = sizeofDeviceRw ∧
      RunsInline E (w.pciedevDevM dev) dir (calls (correctedSize (w.pciedevDevM dev) code)) tr := by
  have hcorrect : (correctFrom dev code).wp (driver E) w fun tr a u =>
      (∀ e ∈ tr, FrameOp e.op) ∧ a = correctedSize (w.pciedevDevM dev) code ∧ u = w := by
    simp only [correctFrom, correctedSize, wp_ite, perform_eq, call_bind, ret_bind, wp_load, wp_ret,
      pure_eq]
    exact ⟨fun h => by simp [h, FrameOp], fun h => by simp [h]⟩
  rw [accessRegion, wp_bind]
  apply wp_mono hcorrect
  intro pre regSize u hpost
  obtain ⟨hpre, hsize, hu⟩ := hpost
  subst hsize
  subst hu
  rw [wp_bind]
  apply (wp_iff_run ..).mpr
  intro seg r u' hrun
  simp only [perform_eq, call_bind, ret_bind, wp_leaveCritRegion, pure_eq, wp_ret]
  exact ⟨trivial, pre, seg, _, r, u, u', rfl, hpre, by simp [FrameOp], by rw [hdev], hrun⟩

/-- A read or write on a live board refuses its request or runs one inline call and reports
success. -/
theorem exp_wp (dir : Direction) (hfile : w.privateData filp = d)
    (hlive : (w.pciedevDevM d).devSts ≠ 0) :
    (dir.exp filp buf count fPosPtr fPos).wp (driver E) w fun tr retval _ =>
      (fPos = pciedFpos ∧ copiedRequest tr = none ∧ retval = dir.refused) ∨
      retval = sizeofDeviceRw ∧
        ((fPos ≠ pciedFpos ∧
            RunsInline E (w.pciedevDevM d) dir
              (positionRequest dir (w.pciedevDevM d) d buf count fPosPtr) tr) ∨
          fPos = pciedFpos ∧ ∃ reading, copiedRequest tr = some reading ∧
            RunsInline E (w.pciedevDevM d) dir
              (reading.request dir (w.pciedevDevM d) d buf) tr) := by
  subst hfile
  rw [dir.exp_eq]
  simp only [accessExp, perform_eq, call_bind, ret_bind, wp_privateData, wp_load, wp_ite, hlive,
    withCritRegion, wp_enterCritRegion, ne_eq, not_true, IsEmpty.forall_iff, true_and,
    not_false_eq_true, forall_const]
  refine (wp_ite ..).mpr ⟨fun hpos => ?_, fun hpos => ?_⟩
  · refine wp_mono (accessRegion_wp dir _ _ fun _ => rfl) fun tr a _ hpost => ?_
    obtain ⟨ha, hruns⟩ := hpost
    refine .inr ⟨ha, .inl ⟨hpos, ?_⟩⟩
    exact .cons trivial (.cons trivial (.cons trivial hruns))
  · apply (wp_kernel ..).mpr
    intro reading e _
    cases reading with
    | none =>
      refine (wp_ret ..).mpr (.inl ⟨not_not.mp hpos, ?_, rfl⟩)
      simp [copiedRequest]
    | some reading =>
      refine wp_mono (accessRegion_wp dir _ _ fun _ => rfl) fun tr a _ hpost => ?_
      obtain ⟨ha, hruns⟩ := hpost
      refine .inr ⟨ha, .inr ⟨not_not.mp hpos, reading, rfl, ?_⟩⟩
      exact .cons trivial (.cons trivial (.cons trivial (.cons trivial hruns)))

theorem reportsFailure_success {dir : Direction} {v : PciedevDev} {request : Option InlineCall}
    {tr : Trace} : ReportsFailure dir v request tr sizeofDeviceRw ↔
      ∃ c ∈ request, Completed dir v c tr := by
  constructor
  · exact fun h => h.success rfl
  · exact fun h => ⟨fun _ => h, fun hnone => absurd h hnone⟩

/-- A call on a probed board reports what it should exactly if its request, where it has one, is the
one that is carried out and can be fulfilled. -/
theorem failure_reported_iff {dir : Direction} {tr : Trace} {retval : ℤ} (hw : FromProbe E d w)
    (hfile : w.privateData filp = d)
    (hrun : (dir.exp filp buf count fPosPtr fPos).Run (driver E) w tr retval w') :
    ReportsFailure dir (w.pciedevDevM d)
      (requestOf dir (w.pciedevDevM d) d buf count fPos tr) tr retval ↔
      ∀ c ∈ requestOf dir (w.pciedevDevM d) d buf count fPos tr,
        (fPos ≠ pciedFpos → positionRequest dir (w.pciedevDevM d) d buf count fPosPtr = c) ∧
          Fulfillable (w.pciedevDevM d) c tr := by
  have hlive := hw.live
  generalize hv : w.pciedevDevM d = v at hlive ⊢
  have hcases := hrun.of_wp (exp_wp dir hfile (hv ▸ hlive.devSts))
  rw [hv] at hcases
  have hcode (code : ℕ) : ValidCode (correctedSize v code) :=
    validCode_correctedSize hlive.registerSize code
  rcases hcases with ⟨hplain, hnone, rfl⟩ | ⟨rfl, ⟨hpos, hruns⟩ | ⟨hplain, reading, hcopied, hruns⟩⟩
  · -- no request could be copied
    have hrequest : requestOf dir v d buf count fPos tr = none := by simp [requestOf, hplain, hnone]
    have hneg := dir.refused_neg
    rw [hrequest]
    refine iff_of_true ⟨fun heq => ?_, fun _ => hneg⟩ (by simp)
    rw [heq] at hneg
    exact absurd hneg (by decide)
  · have hrequest : requestOf dir v d buf count fPos tr =
        some (positionRequest dir v d buf count fPos) := if_pos hpos
    rw [reportsFailure_success, hrequest]
    simp only [Option.mem_def, Option.some.injEq, exists_eq_left', forall_eq',
      hruns.completed_iff (hcode _) rfl, ne_eq, hpos, not_false_eq_true, forall_const]
  · have hrequest : requestOf dir v d buf count fPos tr = some (reading.request dir v d buf) := by
      simp [requestOf, hplain, hcopied]
    rw [reportsFailure_success, hrequest]
    simp only [Option.mem_def, Option.some.injEq, exists_eq_left', forall_eq',
      hruns.completed_iff (hcode _) rfl, hplain, ne_eq, not_true_eq_false,
        IsEmpty.forall_iff, true_and]

end

def unmappedRequest : Outcome :=
  { request := fun
      | .deviceRw => some { offsetRw := 0, dataRw := 0, registerSize := 2, barxRw := 1 }
      | _ => none }

set_option maxRecDepth 8000 in
theorem unmapped_read_reported_done : ∃ (tr : Trace) (w w' : World Unit),
    FromProbe openEnvironment 0 w ∧
    (Direction.read.exp 0 0x1000 24 0 pciedFpos).Run (driver openEnvironment) w tr
      sizeofDeviceRw w' ∧
    (w.pciedevDevM 0).memmoryBase 1 = none ∧
    ¬ ReportsFailure .read (w.pciedevDevM 0)
      (requestOf .read (w.pciedevDevM 0) 0 0x1000 24 pciedFpos tr) tr sizeofDeviceRw := by
  obtain ⟨_, tr, w, w', hprobe, hread, hnull, hcopied⟩ : ∃ (tr₀ tr : Trace) (w w' : World Unit),
      (pciedevProbeExp 0 0 0).Run (driver openEnvironment) (.uniform {}) tr₀ ((0 : ℤ), 0) w ∧
      (Direction.read.exp 0 0x1000 24 0 pciedFpos).Run (driver openEnvironment) w tr
        sizeofDeviceRw w' ∧
      (w.pciedevDevM 0).memmoryBase 1 = none ∧
      copiedRequest tr = some { offsetRw := 0, dataRw := 0, registerSize := 2, barxRw := 1 } :=
    ⟨_, _, _, _, run_of_answers (Outcome.answers {}) (fun _ _ _ _ _ => trivial) rfl,
      run_of_answers unmappedRequest.answers (fun _ _ _ _ _ => trivial) rfl, rfl, rfl⟩
  refine ⟨tr, w, w', .probe hprobe, hread, hnull, fun h => ?_⟩
  obtain ⟨c, hc, hdone⟩ := h.success rfl
  simp only [requestOf, hcopied, ne_eq, not_true_eq_false, if_false, Option.map_some,
    Option.mem_def, Option.some.injEq] at hc
  obtain ⟨bar, hbar, hopen, -⟩ := hdone.moved
  obtain rfl : bar = 1 := Fin.ext (hbar.symm.trans (by rw [← hc]; rfl))
  exact hopen.mapped hnull

set_option maxRecDepth 8000 in
theorem failure_reported_iff_plainRead : ∃ (tr : Trace) (w w' : World Unit),
    FromProbe openEnvironment 0 w ∧
    (Direction.read.exp 0 0x1000 24 0 pciedFpos).Run (driver openEnvironment) w tr
      sizeofDeviceRw w' ∧
    ReportsFailure .read (w.pciedevDevM 0)
      (requestOf .read (w.pciedevDevM 0) 0 0x1000 24 pciedFpos tr) tr sizeofDeviceRw := by
  obtain ⟨_, tr, w, w', hprobe, hread, hfile, hbase, hwindow, hcopied, hcopies, hcheck⟩ :
      ∃ (tr₀ tr : Trace) (w w' : World Unit),
      (pciedevProbeExp 0 0 0).Run (driver openEnvironment) (.uniform {}) tr₀ ((0 : ℤ), 0) w ∧
      (Direction.read.exp 0 0x1000 24 0 pciedFpos).Run (driver openEnvironment) w tr
        sizeofDeviceRw w' ∧
      w.privateData 0 = 0 ∧ (w.pciedevDevM 0).memmoryBase 0 = some 1 ∧
      ((w.pciedevDevM 0).memBaseEnd 0 - (w.pciedevDevM 0).memBase 0).toNat = 0xfff ∧
      copiedRequest tr = some { offsetRw := 4, dataRw := 0, registerSize := 2, barxRw := 0 } ∧
      CopiesSucceed tr ∧ ∀ e ∈ tr, ¬ e.op.startsCheck :=
    ⟨_, _, _, _, run_of_answers (Outcome.answers {}) (fun _ _ _ _ _ => trivial) rfl,
      run_of_answers plainRequest.answers (fun _ _ _ _ _ => trivial) rfl, rfl, rfl, rfl, rfl,
      by decide, by decide⟩
  have hboard : FromProbe openEnvironment 0 w := .probe hprobe
  refine ⟨tr, w, w', hboard, hread, (failure_reported_iff hboard hfile hread).mpr fun c hc => ?_⟩
  simp only [requestOf, hcopied, ne_eq, not_true_eq_false, if_false, Option.map_some,
    Option.mem_def, Option.some.injEq] at hc
  subst hc
  have hmapped : (w.pciedevDevM 0).memmoryBase 0 ≠ none := by simp [hbase]
  have haligned : 4 ∣ (4 : UInt32).toNat := by decide
  have hinside : 1 ≤ (w.pciedevDevM 0).registersAfter 0 4 4 := by
    rw [PciedevDev.registersAfter, hwindow]
    decide
  have hcount : 1 ≤ 2 ^ 31 := by decide
  have hbuffer : (0x1000 + deviceRwDataOffset : UInt64) ≠ 0 := by decide
  exact ⟨fun h => absurd rfl h, ⟨0, rfl, ⟨hmapped, haligned⟩, hinside⟩, hcount, fun _ => hbuffer,
    hcopies, not_scratchError hcheck⟩

end Upciedev
