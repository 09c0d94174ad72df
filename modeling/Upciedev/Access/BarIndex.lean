import Upciedev.Access.AllOnes

/-!
# Indices into the BAR arrays

Neither inline function looks at the BAR number it is given, and the scratch check does
not look at the one it finds in the entry. A request stays inside the three BAR arrays
exactly if each BAR it names exists and the scratch check is safe.
-/
namespace Upciedev

open Foundations Program

/-- Array reads have an index in `P`; no scratch check starts and no request is copied. -/
@[reducible] def IndexIn (P : UInt32 → Prop) : Op → Prop
  | .memmoryBase _ i | .memBase _ i | .memBaseEnd _ i => P i
  | .note .checkScratch => False
  | .kernel (.copyFromUser .deviceRw _) | .kernel (.copyFromUser .deviceIocRw _) => False
  | op => op.Steady

theorem IndexIn.steady {P : UInt32 → Prop} {op : Op} (h : IndexIn P op) : op.Steady := by
  cases op <;> trivial

def readsOtherBar : Op → Bool
  | .memmoryBase _ i | .memBase _ i | .memBaseEnd _ i => numberOfBars ≤ i.toNat
  | _ => false

/-- A request is copied that names a BAR which does not exist. -/
def AsksOtherBar (e : Event driverInterface) : Prop :=
  ∃ bar offset count, dataEvent e.op e.res = some (.request bar offset count) ∧
    numberOfBars ≤ bar.toNat

def UsesOtherBar (tr : Trace) : Prop := ∃ e ∈ tr, readsOtherBar e.op

instance (tr : Trace) : Decidable (UsesOtherBar tr) :=
  inferInstanceAs (Decidable (∃ e ∈ tr, readsOtherBar e.op))

def NamesOtherBar (tr : Trace) : Prop := ∃ e ∈ tr, AsksOtherBar e

section
variable {e : Event driverInterface} {tr tr' : Trace}

@[simp] theorem usesOtherBar_nil : ¬ UsesOtherBar [] := by simp [UsesOtherBar]

@[simp] theorem usesOtherBar_cons :
    UsesOtherBar (e :: tr) ↔ readsOtherBar e.op ∨ UsesOtherBar tr := by
  simp [UsesOtherBar]

@[simp] theorem namesOtherBar_nil : ¬ NamesOtherBar [] := by simp [NamesOtherBar]

@[simp] theorem namesOtherBar_cons :
    NamesOtherBar (e :: tr) ↔ AsksOtherBar e ∨ NamesOtherBar tr := by
  simp [NamesOtherBar]

@[simp] theorem usesOtherBar_append :
    UsesOtherBar (tr ++ tr') ↔ UsesOtherBar tr ∨ UsesOtherBar tr' := by
  simp only [UsesOtherBar, List.mem_append, or_and_right, exists_or]

@[simp] theorem namesOtherBar_append :
    NamesOtherBar (tr ++ tr') ↔ NamesOtherBar tr ∨ NamesOtherBar tr' := by
  simp only [NamesOtherBar, List.mem_append, or_and_right, exists_or]

end

/-- Apart from the scratch check, other BARs are used exactly if `named` says so. -/
structure Indexed (scratchOut named : Prop) (tr : Trace) : Prop where
  uses_iff : UsesOtherBar tr ↔ named ∨ ChecksScratch tr ∧ scratchOut
  names_none : ¬ NamesOtherBar tr

section
variable {scratchOut named named' : Prop} {tr tr' : Trace}

theorem Indexed.append (h : Indexed scratchOut named tr) (h' : Indexed scratchOut False tr') :
    Indexed scratchOut named (tr ++ tr') where
  uses_iff := by
    rw [usesOtherBar_append, checksScratch_append, h.uses_iff, h'.uses_iff]
    tauto
  names_none := by simp [h.names_none, h'.names_none]

theorem not_request_of_indexIn {P : UInt32 → Prop} {op : Op} {r : op.Res} (h : IndexIn P op)
    (bar offset : UInt32) (count : ℕ) : dataEvent op r ≠ some (.request bar offset count) := by
  unfold dataEvent
  split <;> first | exact h.elim | simp

theorem not_asks_of_indexIn {P : UInt32 → Prop} {e : Event driverInterface} (h : IndexIn P e.op) :
    ¬ AsksOtherBar e := fun ⟨bar, offset, count, hreq, _⟩ =>
  not_request_of_indexIn h bar offset count hreq

theorem IndexIn.exists_of_reads {P : UInt32 → Prop} {op : Op} (h : IndexIn P op)
    (hreads : readsOtherBar op) : ∃ i, P i ∧ numberOfBars ≤ i.toNat := by
  cases op with
  | memmoryBase d i | memBase d i | memBaseEnd d i => exact ⟨i, h, of_decide_eq_true hreads⟩
  | _ => cases hreads

theorem Indexed.single {i : UInt32} (h : ∀ e ∈ tr, IndexIn (· = i) e.op)
    (hread : ∃ e ∈ tr, ∃ d, e.op = .memmoryBase d i) :
    Indexed scratchOut (numberOfBars ≤ i.toNat) tr where
  uses_iff := by
    have hchecks : ¬ ChecksScratch tr := fun ⟨⟨op, r⟩, he, hop⟩ => by subst hop; exact h _ he
    simp only [hchecks, false_and, or_false]
    constructor
    · rintro ⟨e, he, hreads⟩
      obtain ⟨_, rfl, hi⟩ := (h e he).exists_of_reads hreads
      exact hi
    · obtain ⟨e, he, d, hop⟩ := hread
      exact fun hi => ⟨e, he, by rw [hop]; exact decide_eq_true hi⟩
  names_none := fun ⟨e, he, hasks⟩ => not_asks_of_indexIn (h e he) hasks

theorem Indexed.nil : Indexed scratchOut False [] := by
  constructor <;> simp

theorem Indexed.cons {e : Event driverInterface} (he : IndexIn (fun _ => False) e.op)
    (h : Indexed scratchOut named tr) : Indexed scratchOut named (e :: tr) := by
  have hreads : ¬ readsOtherBar e.op :=
    fun hreads => (he.exists_of_reads hreads).elim fun _ hi => hi.1
  have hcheck : e.op ≠ .note .checkScratch := fun hop => by rw [hop] at he; exact he
  constructor
  · simp [hreads, hcheck, h.uses_iff]
  · simp [not_asks_of_indexIn he, h.names_none]

end

section
variable {α β : Type} (owner : File → Entry) (table : Entry → PciedevDev) (dev : Entry)

/-- Programs whose traces are indexed as `Indexed` says, for the scratch BAR of one entry. -/
def Indexes (named : Prop) (p : Kernel α) : Prop :=
  p.Sat (tableAnswers owner table) Op.Steady fun tr _ =>
    Indexed (numberOfBars ≤ (table dev).scratchBar.toNat) named tr

variable {owner table dev} {named : Prop}

theorem Indexes.bind {p : Kernel α} {f : α → Kernel β} (hp : Indexes owner table dev named p)
    (hf : ∀ a, Indexes owner table dev False (f a)) : Indexes owner table dev named (p >>= f) :=
  (sat_bind ..).mpr (Sat.imp hp fun _ a htr => (hf a).imp fun _ _ htr' => htr.append htr')

theorem Indexes.ret (a : α) : Indexes owner table dev False (ret a) := Indexed.nil

theorem Indexes.call {op : Op} {k : op.Res → Kernel α} (hop : IndexIn (fun _ => False) op)
    (hk : ∀ r, Indexes owner table dev False (k r)) :
    Indexes owner table dev False (Program.call (I := driverInterface) op k) := by
  exact (sat_call ..).mpr ⟨hop.steady, fun r _ => Sat.imp (hk r) fun tr _ htr => htr.cons hop⟩

theorem indexed_composed (scratchOut : Prop) : Composed (Indexed scratchOut False) :=
  ⟨.nil, fun h h' => h.append h'⟩

theorem moveOp_indexIn {op : Op} (h : MoveOp dev op) : IndexIn (fun _ => False) op := by
  cases op with
  | note n => cases n <;> first | exact h.elim | trivial
  | kernel c =>
    cases c with
    | copyFromUser T src => cases T <;> first | exact h.elim | trivial
    | _ => first | exact h.elim | trivial
  | _ => first | exact h.elim | trivial

theorem moveOp_indexed {scratchOut : Prop} {e : Event driverInterface} (h : MoveOp dev e.op) :
    Indexed scratchOut False [e] := Indexed.nil.cons (moveOp_indexIn h)

/-- The scratch check reads the mapping of the scratch BAR, and of no other. -/
theorem readScratch_sat :
    (readScratch dev).Sat (tableAnswers owner table) (IndexIn (· = (table dev).scratchBar))
      fun tr _ => ∃ e ∈ tr, ∃ d, e.op = .memmoryBase d (table dev).scratchBar := by
  simp [readScratch, sat_ite, tableAnswers, IndexIn, Op.Steady, deviceScrachTest, readWritePrivate,
    accessRegister]

theorem pciedevCheckScratch_indexes : Indexes owner table dev False (pciedevCheckScratch dev) := by
  simp only [Indexes, pciedevCheckScratch, perform_eq, call_bind, ret_bind, sat_call, sat_bind,
    sat_ret, pure_eq]
  refine ⟨trivial, fun _ _ =>
    (readScratch_sat.trace fun _ => IndexIn.steady).imp fun tr _ hpost => ?_⟩
  refine ⟨trivial, fun _ _ => ?_⟩
  have hbody : Indexed False _ tr := Indexed.single hpost.1 hpost.2
  have hnote (n : Note) : ¬ readsOtherBar (.note n) ∧ ¬ AsksOtherBar ⟨.note n, ()⟩ := by
    cases n <;> simp [readsOtherBar, AsksOtherBar, dataEvent]
  constructor
  · simp [hnote, hbody.uses_iff]
  · simp [hnote, hbody.names_none]

theorem readLoop_indexes {c : InlineCall} (hdev : c.dev = dev) (u : UInt32) (n : ℕ)
    (pcUserBuf : UInt64) (a : IoAddr) (tmpDataForRw : UInt32) (retval : ℤ) :
    Indexes owner table dev False (readLoop c u n pcUserBuf a tmpDataForRw retval) := by
  subst hdev
  exact (indexed_composed _).readLoop (fun _ hop => (moveOp_indexIn hop).steady)
    (fun _ => moveOp_indexed) pciedevCheckScratch_indexes u n pcUserBuf a tmpDataForRw retval

theorem writeLoop_indexes (c : InlineCall) (u : UInt32) (n : ℕ) (pcUserData pcUserMask : UInt64)
    (a : IoAddr) (tmpDataForRw tmpMaskForW : UInt32) (retval : ℤ) :
    Indexes owner table dev False
      (writeLoop c u n pcUserData pcUserMask a tmpDataForRw tmpMaskForW retval) :=
  (indexed_composed _).of_only (writeLoop_only c u n _ _ _ _ _ _)
    (fun _ hop => (moveOp_indexIn hop).steady) fun _ => moveOp_indexed

/-- The window is opened with the BAR number as it came, starting with its mapping. -/
theorem openWindow_indexes (c : InlineCall) :
    Indexes owner table dev (numberOfBars ≤ c.bar.toNat) (openWindow c) := by
  have hwindow : (openWindow c).Sat (tableAnswers owner table) (IndexIn (· = c.bar)) fun tr _ =>
      ∃ e ∈ tr, ∃ d, e.op = .memmoryBase d c.bar := by
    simp [openWindow, umod, udiv, fault, sat_ite, IndexIn, Op.Steady]
  exact (hwindow.trace fun _ => IndexIn.steady).imp fun tr _ h => .single h.1 h.2

theorem registers_indexes (dir : Direction) {c : InlineCall} (hdev : c.dev = dev) :
    Indexes owner table dev (numberOfBars ≤ c.bar.toNat) (dir.registers c) := by
  cases dir with
  | read =>
    apply (openWindow_indexes c).bind
    intro window
    cases window with
    | none => exact .ret _
    | some window => exact .call trivial fun _ => readLoop_indexes hdev _ _ _ _ _ _
  | write =>
    apply (openWindow_indexes c).bind
    intro window
    cases window with
    | none => exact .ret _
    | some window => exact .call trivial fun _ => writeLoop_indexes _ _ _ _ _ _ _ _ _

theorem inline_indexes (dir : Direction) {c : InlineCall} (hdev : c.dev = dev) :
    Indexes owner table dev (numberOfBars ≤ c.bar.toNat) (dir.inline c) := by
  have hnote : IndexIn (fun _ => False) (.note (dir.note c)) := by cases dir <;> trivial
  rw [dir.inline_eq]
  exact (sat_call ..).mpr ⟨trivial, fun r _ => Sat.imp (registers_indexes dir hdev) fun tr _ htr =>
    htr.cons hnote⟩

end

theorem indexed_logic (owner : File → Entry) (table : Entry → PciedevDev) (dev : Entry) :
    InlineLogic owner table dev (tableAnswers owner table) Op.Steady fun c tr =>
      Indexed (numberOfBars ≤ (table dev).scratchBar.toNat) (numberOfBars ≤ c.bar.toNat) tr where
  answers _ _ h := h
  allows _ h := (frameOp_readOnly h).steady
  inline dir _ _ hdev _ := inline_indexes dir hdev

/-- On a positional call the BAR is named by the position word. -/
def PositionOtherBar (position : Option (UInt64 × UInt64)) : Prop :=
  ∃ p ∈ position, numberOfBars ≤ (posBarx p.1).toNat

section
variable {scratchOut : Prop} {tr : Trace}

theorem FrameOp.not_reads {op : Op} (h : FrameOp op) :
    ¬ readsOtherBar op ∧ op ≠ .note .checkScratch := by
  refine ⟨?_, fun hop => (hop ▸ h : FrameOp (.note .checkScratch))⟩
  cases op with
  | memmoryBase | memBase | memBaseEnd => exact h.elim
  | _ => simp [readsOtherBar]

theorem Quiet.not_asks {e : Event driverInterface} (h : Quiet e) : ¬ AsksOtherBar e :=
  fun ⟨bar, offset, count, hreq, _⟩ => h.2 bar offset count hreq

theorem AllQuiet.none (h : AllQuiet tr) :
    ¬ UsesOtherBar tr ∧ ¬ NamesOtherBar tr ∧ ¬ ChecksScratch tr :=
  ⟨fun ⟨e, he, hreads⟩ => (h e he).1.not_reads.1 hreads, fun ⟨e, he, hasks⟩ =>
    (h e he).not_asks hasks, fun ⟨e, he, hop⟩ => (h e he).1.not_reads.2 hop⟩

theorem InlineCall.Answers.asks_iff {c : InlineCall} {e : Event driverInterface} (h : c.Answers e) :
    AsksOtherBar e ↔ numberOfBars ≤ c.bar.toNat := by
  constructor
  · rintro ⟨bar, offset, count, hreq, hbar⟩
    rw [h.2, Option.some.injEq, DataEvent.request.injEq] at hreq
    rwa [hreq.1]
  · exact fun hbar => ⟨c.bar, c.offset, c.count, h.2, hbar⟩

/-- Over a whole trace of requests, other BARs are read exactly if one is named or the scratch
check comes to one. -/
theorem RequestTrace.uses_iff
    (h : RequestTrace (fun c tr => Indexed scratchOut (numberOfBars ≤ c.bar.toNat) tr) tr) :
    UsesOtherBar tr ↔ NamesOtherBar tr ∨ ChecksScratch tr ∧ scratchOut := by
  induction h with
  | nil => simp
  | quiet he _ ih => simp [he.1.not_reads, he.not_asks, ih]
  | call he hmid hl _ ih =>
    simp only [usesOtherBar_cons, usesOtherBar_append, namesOtherBar_cons, namesOtherBar_append,
      checksScratch_cons, checksScratch_append, he.1.not_reads, he.asks_iff, hmid.none,
        hl.names_none,
      hl.uses_iff, ih, false_or, or_false]
    tauto

theorem CallTrace.uses_iff {bar offset : UInt32} {count : ℕ}
    (h : CallTrace (fun c tr => Indexed scratchOut (numberOfBars ≤ c.bar.toNat) tr)
      AllQuiet bar offset
      count tr) :
    (UsesOtherBar tr ↔ numberOfBars ≤ bar.toNat ∨ ChecksScratch tr ∧ scratchOut) ∧
      ¬ NamesOtherBar tr := by
  obtain ⟨c, pre, l, post, rfl, hpre, hl, hpost, rfl, -, -⟩ := h
  simp [hpre.none, hl.uses_iff, hl.names_none, hpost.none]

end

/-- A data request on a live board stays inside the BAR arrays exactly if every BAR it names
exists (in a copied request, or in the decoded position word) and no register of a read answers with
all ones while the scratch BAR does not exist. -/
theorem bar_index_safe_iff {ε : Type} {E : Environment ε} {w w' : World ε} {c : FileCall}
    (hc : c.IsDataRequest) (hlive : Live (w.pciedevDevM (w.privateData c.filp)))
    {tr : Trace} {retval : ℤ} (hrun : c.program.Run (driver E) w tr retval w') :
    ¬ UsesOtherBar tr ↔
      ¬ NamesOtherBar tr ∧ ¬ PositionOtherBar c.position ∧
        (SeesOnes c.Reads ((w.pciedevDevM (w.privateData c.filp)).swap ≠ 0) .start tr →
          (w.pciedevDevM (w.privateData c.filp)).scratchBar.toNat < numberOfBars) := by
  have hsat := dataRequest_sat (indexed_logic w.privateData w.pciedevDevM _) hc rfl hlive.devSts
  have htrace := steady_run hsat (fun _ hop => hop) hrun
  have hsees := steady_run (dataRequest_sees (P := fun _ => True) hlive.registerSize hc rfl)
    (fun _ hop => hop) hrun
  have hscratch (b : UInt32) : b.toNat < numberOfBars ↔ ¬ numberOfBars ≤ b.toNat := not_le.symm
  rw [hscratch, hsees .start trivial]
  cases hposition : c.position with
  | none =>
    rw [hposition] at htrace
    simp only [htrace.uses_iff, PositionOtherBar, Option.mem_def, reduceCtorEq, false_and,
      exists_false, not_false_eq_true, true_and, not_or, not_and]
  | some p =>
    rw [hposition] at htrace
    obtain ⟨huses, hnames⟩ := htrace.uses_iff
    simp only [PositionOtherBar, Option.mem_def, Option.some.injEq, exists_eq_left', huses, hnames,
      not_or, not_and, not_false_eq_true, true_and]

def otherBarRequest : Outcome :=
  { request := fun
      | .deviceRw => some { offsetRw := 0, dataRw := 0, registerSize := 2, barxRw := 6 }
      | _ => none }

set_option maxRecDepth 4000 in
theorem plainRead_uses_other_bar : ∃ w tr retval w', FromProbe openEnvironment 0 w ∧
    (pciedevReadExp 0 0 0 0 pciedFpos).Run (driver openEnvironment) w tr retval w' ∧
    UsesOtherBar tr := by
  obtain ⟨_, w, tr, retval, w', hprobe, hrun, huses⟩ : ∃ tr₀ w tr retval w',
      (pciedevProbeExp 0 0 0).Run (driver openEnvironment) (.uniform {}) tr₀ ((0 : ℤ), 0) w ∧
      (pciedevReadExp 0 0 0 0 pciedFpos).Run (driver openEnvironment) w tr retval w' ∧
      UsesOtherBar tr :=
    ⟨_, _, _, _, _, run_of_answers (Outcome.answers {}) (fun _ _ _ _ _ => trivial) rfl,
      run_of_answers otherBarRequest.answers (fun _ _ _ _ _ => trivial) rfl, by decide⟩
  exact ⟨w, tr, retval, w', .probe hprobe, hrun, huses⟩

/-- The plain read on a board on which everything reads as all ones. -/
def lostRequest : Outcome := { plainRequest with register := fun _ => 0xffffffff }

set_option maxRecDepth 8000 in
theorem bar_index_safe_iff_lostRead : ∃ w tr retval w', FromProbe openEnvironment 0 w ∧
    (pciedevReadExp 0 0 0 0 pciedFpos).Run (driver openEnvironment) w tr retval w' ∧
    SeesOnes (fun _ => True) ((w.pciedevDevM 0).swap ≠ 0) .start tr ∧ ¬ NamesOtherBar tr := by
  obtain ⟨_, w, tr, retval, w', hprobe, hfile, hrun, hones, huses⟩ : ∃ tr₀ w tr retval w',
      (pciedevProbeExp 0 0 0).Run (driver openEnvironment) (.uniform {}) tr₀ ((0 : ℤ), 0) w ∧
      w.privateData 0 = 0 ∧
      (pciedevReadExp 0 0 0 0 pciedFpos).Run (driver openEnvironment) w tr retval w' ∧
      SeesOnes (fun _ => True) ((w.pciedevDevM 0).swap ≠ 0) .start tr ∧ ¬ UsesOtherBar tr :=
    ⟨_, _, _, _, _, run_of_answers (Outcome.answers {}) (fun _ _ _ _ _ => trivial) rfl, rfl,
      run_of_answers lostRequest.answers (fun _ _ _ _ _ => trivial) rfl,
      by repeat first | exact .inl ⟨trivial, rfl, rfl⟩ | apply Or.inr, by decide⟩
  have hboard : FromProbe openEnvironment 0 w := .probe hprobe
  have hsafe := (bar_index_safe_iff (c := .readExp 0 0 0 0 pciedFpos) trivial
    (hfile ▸ hboard.live) hrun).mp huses
  exact ⟨w, tr, retval, w', hboard, hrun, hones, hsafe.1⟩

end Upciedev
