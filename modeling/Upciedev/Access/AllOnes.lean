import Upciedev.Access.InlineEnd
import Upciedev.Access.WindowConfinement

/-!
# Registers that read as all ones

A read request starts the scratch check when a register reads as all ones at its width into a word
that has no bits above it. Whether this happens can be told from the answers in a trace alone.
-/
namespace Upciedev

open Foundations Program

def ChecksScratch (tr : Trace) : Prop := ∃ e ∈ tr, e.op = .note .checkScratch

@[simp] theorem checksScratch_nil : ¬ ChecksScratch [] := by simp [ChecksScratch]

@[simp] theorem checksScratch_cons {e : Event driverInterface} {tr : Trace} :
    ChecksScratch (e :: tr) ↔ e.op = .note .checkScratch ∨ ChecksScratch tr := by
  simp [ChecksScratch]

@[simp] theorem checksScratch_append {tr tr' : Trace} :
    ChecksScratch (tr ++ tr') ↔ ChecksScratch tr ∨ ChecksScratch tr' := by
  simp only [ChecksScratch, List.mem_append, or_and_right, exists_or]

/-- The request that was copied last, and the widths above which the word of the stack is clear. -/
structure Sight where
  request : Option DeviceIocRw
  clear : Width → Prop

def Sight.start : Sight := ⟨none, fun _ => False⟩

/-- After an answer. A swap of two bytes, as it follows every read, clears the word above them. -/
def Sight.next (swapped : Prop) (s : Sight) (e : Event driverInterface) : Sight :=
  match e.op, e.res with
  | .kernel (.copyFromUser .deviceIocRw _), rw => ⟨rw, s.clear⟩
  | .kernel .uninit, x => ⟨s.request, fun w => w.Clear x⟩
  | .kernel (.ioread _ _), _ => ⟨s.request, fun w => s.clear w ∨ w = .w16 ∧ swapped⟩
  | _, _ => s

/-- A register of a reading request answers with all ones, into a word that is clear. -/
def Sight.Ones (reads : Option DeviceIocRw → Prop) (s : Sight) (e : Event driverInterface) : Prop :=
  match e.op, e.res with
  | .kernel (.ioread w _), r => reads s.request ∧ w.AllOnes r ∧ s.clear w
  | _, _ => False

/-- Some register of a reading request answers with all ones. -/
def SeesOnes (reads : Option DeviceIocRw → Prop) (swapped : Prop) : Sight → Trace → Prop
  | _, [] => False
  | s, e :: tr => s.Ones reads e ∨ SeesOnes reads swapped (s.next swapped e) tr

/-- The calls that read, as far as the copied request decides it. -/
def FileCall.Reads : FileCall → Option DeviceIocRw → Prop
  | readExp .., _ => True
  | ioctlExp _ cmd _, request =>
      cmd = IoctlCmd.lockedRead.code ∨
        (cmd = IoctlCmd.vectorRw.code ∨ cmd = IoctlCmd.singleIocAccess.code) ∧
          ∃ rw ∈ request, rw.rwAccessMode < mtcaSimpleWrite
  | _, _ => False

/-- Operations that show nothing and start no scratch check. -/
@[reducible] def Unseen : Op → Prop
  | .kernel (.copyFromUser .deviceIocRw _) | .kernel .uninit | .kernel (.ioread _ _) => False
  | .note .checkScratch => False
  | op => op.Steady

section
variable {reads : Option DeviceIocRw → Prop} {swapped : Prop} {s : Sight} {op : Op} {r : op.Res}
  {tr : Trace}

theorem Unseen.steady (h : Unseen op) : op.Steady := by
  cases op <;> trivial

theorem Unseen.kept (h : Unseen op) : s.next swapped ⟨op, r⟩ = s ∧ ¬ s.Ones reads ⟨op, r⟩ := by
  cases op with
  | kernel c =>
    cases c with
    | copyFromUser T src => cases T <;> first | exact h.elim | exact ⟨rfl, id⟩
    | uninit | ioread => exact h.elim
    | _ => exact ⟨rfl, id⟩
  | _ => exact ⟨rfl, id⟩

theorem Unseen.not_check (h : Unseen op) : op ≠ .note .checkScratch := by
  rintro rfl
  exact h

theorem seesOnes_unseen (h : Unseen op) :
    (SeesOnes reads swapped s (⟨op, r⟩ :: tr) ↔ ChecksScratch (⟨op, r⟩ :: tr)) ↔
      (SeesOnes reads swapped s tr ↔ ChecksScratch tr) := by
  have hkept : s.next swapped ⟨op, r⟩ = s ∧ ¬ s.Ones reads ⟨op, r⟩ := h.kept
  obtain ⟨hnext, hones⟩ := hkept
  simp [SeesOnes, hnext, hones, h.not_check]

theorem not_seesOnes {dev : Entry} (hreads : ¬ reads s.request) (htr : ∀ e ∈ tr, MoveOp dev e.op) :
    ¬ SeesOnes reads swapped s tr := by
  induction tr generalizing s with
  | nil => exact id
  | cons e tr ih =>
    obtain ⟨op, r⟩ := e
    obtain ⟨hop, htr⟩ := List.forall_mem_cons.mp htr
    have hkept : (s.next swapped ⟨op, r⟩).request = s.request ∧ ¬ s.Ones reads ⟨op, r⟩ := by
      cases op with
      | kernel c =>
        cases c with
        | copyFromUser T src => cases T <;> first | exact hop.elim | exact ⟨rfl, id⟩
        | ioread => exact ⟨rfl, fun h => hreads h.1⟩
        | _ => exact ⟨rfl, id⟩
      | _ => exact ⟨rfl, id⟩
    apply not_or.mpr
    exact ⟨hkept.2, ih (hkept.1 ▸ hreads) htr⟩

theorem seesOnes_append {tr' : Trace} : SeesOnes reads swapped s (tr ++ tr') ↔
    SeesOnes reads swapped s tr ∨ SeesOnes reads swapped (tr.foldl (Sight.next swapped) s) tr' := by
  induction tr generalizing s with
  | nil => simp [SeesOnes]
  | cons e tr ih => simp [SeesOnes, ih, or_assoc]

end

section
variable {α β : Type} (owner : File → Entry) (table : Entry → PciedevDev) (dev : Entry)
  (reads : Option DeviceIocRw → Prop)

/-- From any sight in `P`, the program starts a scratch check exactly if it sees ones. -/
def Sees (P : Sight → Prop) (p : Kernel α) : Prop :=
  p.Sat (tableAnswers owner table) Op.Steady fun tr _ => ∀ s, P s →
    (SeesOnes reads ((table dev).swap ≠ 0) s tr ↔ ChecksScratch tr)

variable {owner table dev reads} {P P' : Sight → Prop}

theorem Sees.imp {p : Kernel α} (h : Sees owner table dev reads P p) (hP : ∀ s, P' s → P s) :
    Sees owner table dev reads P' p := Sat.imp h fun _ _ htr s hs => htr s (hP s hs)

theorem Sees.ret (a : α) : Sees owner table dev reads P (ret a) := fun _ _ => by simp [SeesOnes]

theorem sees_ite {c : Prop} [Decidable c] {p q : Kernel α} (hp : c → Sees owner table dev reads P p)
    (hq : ¬ c → Sees owner table dev reads P q) :
    Sees owner table dev reads P (if c then p else q) := (sat_ite ..).mpr ⟨hp, hq⟩

theorem Sees.unseen {op : Op} {k : op.Res → Kernel α} (hop : Unseen op)
    (hk : ∀ r, tableAnswers owner table op r → Sees owner table dev reads P (k r)) :
    Sees owner table dev reads P (Program.call (I := driverInterface) op k) :=
  (sat_call ..).mpr ⟨hop.steady, fun r hr => Sat.imp (hk r hr) fun _ _ htr s hs =>
    (seesOnes_unseen hop).mpr (htr s hs)⟩

theorem Sees.bind {p : Kernel α} {f : α → Kernel β} (hp : Sees owner table dev reads P p)
    (hf : ∀ a, Sees owner table dev reads (fun _ => True) (f a)) :
    Sees owner table dev reads P (p >>= f) := by
  refine (sat_bind ..).mpr (Sat.imp hp fun tr a htr => ?_)
  apply Sat.imp (hf a)
  intro tr' _ htr' s hs
  rw [seesOnes_append, checksScratch_append, htr s hs, htr' _ trivial]

theorem Sees.after {p : Kernel α} {f : α → Kernel β} {R : α → Prop}
    (hp : p.Sat (tableAnswers owner table) Op.Steady fun tr a => R a ∧ ∀ e ∈ tr, Unseen e.op)
    (hf : ∀ a, R a → Sees owner table dev reads P (f a)) :
    Sees owner table dev reads P (p >>= f) := by
  refine (sat_bind ..).mpr (Sat.imp hp fun tr a hpost => ?_)
  obtain ⟨ha, htr⟩ := hpost
  apply Sat.imp (hf a ha)
  intro tr' _ htr' s hs
  induction tr with
  | nil => exact htr' s hs
  | cons e tr ih =>
    obtain ⟨he, hrest⟩ := List.forall_mem_cons.mp htr
    exact (seesOnes_unseen he).mpr (ih hrest)

theorem Sees.bind_unseen {p : Kernel α} {f : α → Kernel β} (hp : p.Only Unseen)
    (hf : ∀ a, Sees owner table dev reads P (f a)) : Sees owner table dev reads P (p >>= f) :=
  .after (R := fun _ => True) (Sat.of_only hp (fun _ h => h.steady) fun _ _ htr => ⟨trivial, htr⟩)
    fun a _ => hf a

theorem Sees.of_unseen {p : Kernel α} (hp : p.Only Unseen) : Sees owner table dev reads P p := by
  rw [← bind_ret p]
  exact .bind_unseen hp fun a => .ret a

theorem Sees.copy {src : UInt64} {k : Option DeviceIocRw → Kernel α}
    (hk : ∀ request, Sees owner table dev reads (fun s => s.request = request) (k request)) :
    Sees owner table dev reads P
      (Program.call (I := driverInterface) (.kernel (.copyFromUser .deviceIocRw src)) k) := by
  refine (sat_call ..).mpr ⟨trivial, fun request _ => Sat.imp (hk request) fun tr _ htr s _ => ?_⟩
  have hrest :=
    htr (s.next ((table dev).swap ≠ 0) ⟨.kernel (.copyFromUser .deviceIocRw src), request⟩) rfl
  simp [SeesOnes, Sight.Ones, hrest]

end

section
variable {owner : File → Entry} {table : Entry → PciedevDev} {dev : Entry}
  {reads : Option DeviceIocRw → Prop}

theorem moveOp_not_check {op : Op} (h : MoveOp dev op) : op ≠ .note .checkScratch := by
  rintro rfl
  exact h

theorem pciedevCheckScratch_checks :
    (pciedevCheckScratch dev).Sat (tableAnswers owner table) Op.Steady fun tr _ =>
      ChecksScratch tr := by
  have honly := pciedevCheckScratch_only dev
  unfold pciedevCheckScratch at honly ⊢
  simp only [perform_eq, call_bind, ret_bind, only_call] at honly ⊢
  refine (sat_call ..).mpr ⟨trivial, fun r _ => ?_⟩
  exact Sat.of_only (honly.2 r) (fun _ => registerOp_steady) fun _ _ _ => by simp

theorem sees_register {α : Type} {P Q : Sight → Prop} {w : Width} {a : IoAddr}
    {test : UInt32 → Prop} [∀ r, Decidable (test r)] {f : UInt32 → ℤ → Kernel α}
    (htest : ∀ s r, P s → (s.Ones reads ⟨.kernel (.ioread w a), r⟩ ↔ test r))
    (hnext : ∀ s, P s → ∀ r, Q (s.next ((table dev).swap ≠ 0) ⟨.kernel (.ioread w a), r⟩))
    (hf : ∀ r failed, Sees owner table dev reads Q (f r failed)) :
    Sees owner table dev reads P
      (Program.call (I := driverInterface) (.kernel (.ioread w a)) fun r =>
      (if test r then pciedevCheckScratch dev else pure 0) >>= f r) := by
  refine (sat_call ..).mpr ⟨trivial, fun r _ => ?_⟩
  split_ifs with hones
  · refine (sat_bind ..).mpr (pciedevCheckScratch_checks.imp fun tr failed hchecks => ?_)
    refine Sat.imp (hf r failed) fun tr' _ _ s hs => iff_of_true ?_ (by simp [hchecks])
    exact .inl ((htest s r hs).mpr hones)
  · apply Sat.imp (hf r 0)
    intro tr _ htr s hs
    have hnone : ¬ s.Ones reads ⟨.kernel (.ioread w a), r⟩ := fun h => hones ((htest s r hs).mp h)
    simp [SeesOnes, hnone, htr _ (hnext s hs r)]

theorem readLoop_sees {c : InlineCall} (hdev : c.dev = dev)
    (hmode : c.rwAccessMode < mtcaSimpleWrite) {u : UInt32} (hu : WidthAgrees c u) (n : ℕ)
    (pcUserBuf : UInt64) (a : IoAddr) (word : UInt32) (retval : ℤ) :
    Sees owner table dev reads
      (fun s => reads s.request ∧
        (s.clear (.ofRegSize c.registerSize) ↔ (Width.ofRegSize c.registerSize).Clear word))
      (readLoop c u n pcUserBuf a word retval) := by
  subst hdev
  induction n generalizing pcUserBuf a word retval with
  | zero => exact .ret _
  | succ n ih =>
    have hcopy (dst : UInt64) (x : UInt32) :
        (if c.userData ≠ 0 then copyToUser (.data u) dst x else pure false).Only Unseen := by
      simp
    unfold readLoop
    rw [readWritePrivate_eq hmode]
    simp only [perform_eq, call_bind, ret_bind, readWord_eq, scrachTestOf_eq hu,
      Width.setLow_eq_iff]
    refine .unseen trivial fun _ _ => sees_register (Q := fun s => reads s.request ∧
      (s.clear (.ofRegSize c.registerSize) ↔ (Width.ofRegSize c.registerSize).Clear word ∨
        Width.ofRegSize c.registerSize = .w16 ∧ (table c.dev).swap ≠ 0)) ?_ ?_ fun r failed => ?_
    · rintro s r ⟨hreads, hclear⟩
      simp [Sight.Ones, hreads, hclear]
    · rintro s ⟨hreads, hclear⟩ r
      exact ⟨hreads, or_congr hclear Iff.rfl⟩
    · refine sees_ite (fun _ => .ret eNoMem) fun _ => .unseen trivial fun v hv => ?_
      obtain rfl : v = table c.dev := hv
      refine .bind_unseen (hcopy _ _) fun uncopied => sees_ite (fun _ => .ret retval) fun _ => ?_
      refine (ih _ _ _ _).imp fun s hs => ⟨hs.1, hs.2.trans ?_⟩
      exact (Width.clear_clientView hu).symm

theorem windowOp_unseen {op : Op} (h : WindowOp dev op) : Unseen op := by
  cases op with
  | load | memmoryBase | memBase | memBaseEnd | fault => trivial
  | _ => exact h.elim

theorem openWindow_unseen {c : InlineCall} (hcode : ValidCode c.registerSize) :
    (openWindow c).Sat (tableAnswers owner table) Op.Steady fun tr window =>
      (∀ x ∈ window, WidthAgrees c x.1) ∧ ∀ e ∈ tr, Unseen e.op := by
  have hsteady : (openWindow c).Sat (tableAnswers owner table) Op.Steady _ :=
    (openWindow_emits hcode).mono (fun _ _ _ h => h) (fun _ => Op.ReadOnly.steady)
      fun _ _ hpost => hpost
  have honly := (openWindow_only c).mono fun _ => windowOp_unseen
  apply (hsteady.and_only honly).imp
  intro tr window hpost
  obtain ⟨⟨-, -, hwindow⟩, hunseen⟩ := hpost
  refine ⟨fun x hx => ?_, hunseen⟩
  obtain ⟨u, n, a⟩ := x
  exact (hwindow u n a hx).width

theorem inline_sees (dir : Direction) {c : InlineCall} (hdev : c.dev = dev)
    (hcode : ValidCode c.registerSize) (hmode : dir = .read → c.rwAccessMode < mtcaSimpleWrite)
    {P : Sight → Prop} (hP : ∀ s, P s → (reads s.request ↔ dir = .read)) :
    Sees owner table dev reads P (dir.inline c) := by
  have hnote : Unseen (.note (dir.note c)) := by cases dir <;> trivial
  rw [dir.inline_eq]
  refine .unseen hnote fun _ _ => ?_
  cases dir with
  | read =>
    refine .after (openWindow_unseen hcode) fun window hwindow => ?_
    cases window with
    | none => exact .ret _
    | some window =>
      have hu := hwindow window rfl
      refine (sat_call ..).mpr ⟨trivial, fun word _ => ?_⟩
      have hsees : Sees owner table dev reads _ _ := readLoop_sees hdev (hmode rfl) hu
        (loopRounds window.2.1) c.userData window.2.2 word 0
      apply Sat.imp hsees
      intro tr _ htr s hs
      have hloop := htr (s.next ((table dev).swap ≠ 0) ⟨.kernel .uninit, word⟩)
        ⟨(hP s hs).mpr rfl, Iff.rfl⟩
      simp [SeesOnes, Sight.Ones, hloop]
  | write =>
    refine .after (openWindow_unseen hcode) fun window hwindow => ?_
    cases window with
    | none => exact .ret _
    | some window =>
      have honly : (call (I := driverInterface) (.kernel .uninit) fun tmp => writeLoop c window.1
          (loopRounds window.2.1) c.userData c.userMask window.2.2 tmp 0xffffffff 0).Only
            (MoveOp dev) :=
        (only_call ..).mpr ⟨trivial, fun tmp => hdev ▸ writeLoop_only c _ _ _ _ _ _ _ _⟩
      refine Sat.of_only honly (fun _ h => registerOp_steady (moveOp_registerOp dev h))
        fun tr _ htr s hs => ?_
      have hreads : ¬ reads s.request := fun h => absurd ((hP s hs).mp h) (by decide)
      exact iff_of_false (not_seesOnes hreads htr) fun ⟨e, he, hop⟩ =>
        moveOp_not_check (htr e he) hop

end

section
variable {owner : File → Entry} {table : Entry → PciedevDev} {dev : Entry}
  {reads : Option DeviceIocRw → Prop} {P : Sight → Prop} {α : Type}

theorem correctFrom_sees {code : ℕ} {f : UInt16 → Kernel α}
    (hf : Sees owner table dev reads P (f (correctedSize (table dev) code))) :
    Sees owner table dev reads P (correctFrom dev code >>= f) := by
  unfold correctedSize at hf
  unfold correctFrom
  split_ifs at hf ⊢
  · refine .unseen trivial fun v hv => ?_
    obtain rfl : v = table dev := hv
    exact hf
  · exact hf

theorem leaveWith_unseen (retval : ℤ) : (leaveWith dev retval).Only Unseen := by
  simp [leaveWith, Unseen, Op.Steady]

theorem withCritRegion_sees {body : Kernel ℤ} (h : Sees owner table dev reads P body) :
    Sees owner table dev reads P (withCritRegion dev body) :=
  .unseen trivial fun _ _ => sees_ite (fun _ => .ret _) fun _ => h

variable (hsize : ValidSize (table dev).registerSize)
include hsize

theorem correctedInline_sees (dir : Direction) {code : ℕ} {calls : UInt16 → InlineCall}
    {f : ℤ → Kernel α} (hcalls : ∀ regSize, (calls regSize).dev = dev ∧
      (calls regSize).registerSize = regSize ∧
      (dir = .read → (calls regSize).rwAccessMode < mtcaSimpleWrite))
    (hP : ∀ s, P s → (reads s.request ↔ dir = .read))
    (hf : ∀ retval, Sees owner table dev reads (fun _ => True) (f retval)) :
    Sees owner table dev reads P
      (correctFrom dev code >>= fun regSize => dir.inline (calls regSize) >>= f) := by
  obtain ⟨hdev, hcode, hmode⟩ := hcalls (correctedSize (table dev) code)
  refine correctFrom_sees (Sees.bind (inline_sees dir hdev ?_ hmode hP) hf)
  rw [hcode]
  exact validCode_correctedSize hsize code

theorem accessBody_sees (dir : Direction) (refused : ℤ) (buf count fPosPtr fPos : UInt64)
    {accessMode : UInt16} (hmode : dir = .read → accessMode < mtcaSimpleWrite)
    (hreads : ∀ request, reads request ↔ dir = .read) :
    Sees owner table dev reads P
      (accessBody dir accessMode refused dev buf count fPosPtr fPos) := by
  have hend (retval : ℤ) :
      (do let _ ← leaveCritRegion dev; pure sizeofDeviceRw : Kernel ℤ).Only Unseen := by
    simp [Unseen, Op.Steady]
  unfold accessBody
  refine sees_ite (fun _ => ?_) fun _ => .unseen trivial fun reading _ => ?_
  · exact correctedInline_sees hsize dir (fun _ => ⟨rfl, rfl, hmode⟩) (fun s _ => hreads s.request)
      fun retval => .of_unseen (hend retval)
  · cases reading with
    | none => exact .ret _
    | some reading =>
      exact correctedInline_sees hsize dir (fun _ => ⟨rfl, rfl, hmode⟩) (fun s _ =>
        hreads s.request)
        fun retval => .of_unseen (hend retval)

theorem vectorLoop_sees (n : ℕ) (pUserRWdata : UInt64) (retval : ℤ)
    (hreads : ∀ rw, reads (some rw) ↔ rw.rwAccessMode < mtcaSimpleWrite) :
    Sees owner table dev reads P (vectorLoop dev n pUserRWdata retval) := by
  induction n generalizing P pUserRWdata retval with
  | zero => exact .ret _
  | succ n ih =>
    apply Sees.copy
    intro request
    cases request with
    | none => exact .ret _
    | some rw =>
      simp only [transfer_eq]
      refine correctedInline_sees hsize rw.direction (fun _ => ⟨rfl, rfl, rw.direction_eq_read.mp⟩)
        ?_ fun moved => ih _ _
      intro s hs
      rw [hs, hreads, rw.direction_eq_read]

theorem singleIocAccess_sees (arg : UInt64)
    (hreads : ∀ rw, reads (some rw) ↔ rw.rwAccessMode < mtcaSimpleWrite) :
    Sees owner table dev reads P (ioctlSingleIocAccess dev arg) := by
  refine withCritRegion_sees (Sees.copy fun request => ?_)
  cases request with
  | none => exact .of_unseen (leaveWith_unseen _)
  | some rw =>
    apply correctFrom_sees
    have hcode := validCode_correctedSize hsize rw.registerSize.toNat
    unfold singleIocTransfer
    split_ifs with hread hlocked
    · have hP : ∀ s : Sight, s.request = some rw → (reads s.request ↔ Direction.read = .read) :=
        fun s hs => by simp [hs, hreads, hread]
      exact withCritRegion_sees ((inline_sees .read rfl hcode (fun _ => hread) hP).bind fun _ =>
        .of_unseen (leaveWith_unseen _))
    · have hP : ∀ s : Sight, s.request = some rw → (reads s.request ↔ Direction.read = .read) :=
        fun s hs => by simp [hs, hreads, hread]
      exact (inline_sees .read rfl hcode (fun _ => hread) hP).bind fun _ => .ret _
    · have hP : ∀ s : Sight, s.request = some rw → (reads s.request ↔ Direction.write = .read) :=
        fun s hs => by simp [hs, hreads, hread]
      exact withCritRegion_sees
        ((inline_sees .write rfl hcode (fun h => by cases h) hP).bind fun _ =>
        .of_unseen (leaveWith_unseen _))

theorem writeCase_sees {arg : UInt64} {accessMode : UInt16} {data : DeviceIocRw → UInt64}
    {k : Option DeviceIocRw → Kernel ℤ} (hreads : ∀ request, ¬ reads request)
    (hnone : k none = leaveWith dev eFault)
    (hsome : ∀ rw, k (some rw) = correctFrom dev rw.registerSize.toNat >>= fun regSize =>
      Direction.write.inline (rw.call dev regSize accessMode (data rw) rw.maskPtr) >>= fun retval =>
        leaveWith dev (wrapInt retval)) :
    Sees owner table dev reads P (withCritRegion dev (copyFromUser .deviceIocRw arg >>= k)) := by
  simp only [perform_eq, call_bind, ret_bind]
  refine withCritRegion_sees (Sees.copy fun request => ?_)
  cases request with
  | none =>
    rw [hnone]
    exact .of_unseen (leaveWith_unseen _)
  | some rw =>
    rw [hsome]
    exact correctedInline_sees hsize .write (fun _ => ⟨rfl, rfl, fun h => by cases h⟩)
      (fun s _ => iff_of_false (hreads s.request) (by decide)) fun _ =>
        .of_unseen (leaveWith_unseen _)

theorem ioctlCase_sees (arg : UInt64) {c : IoctlCmd} (hc : c ∈ dataCommands) (filp : File) :
    Sees owner table dev (FileCall.ioctlExp filp c.code arg).Reads P (ioctlCase dev arg c) := by
  simp only [dataCommands, List.mem_cons, List.not_mem_nil, or_false] at hc
  have hmode {cmd : IoctlCmd} (hcmd : cmd = .vectorRw ∨ cmd = .singleIocAccess) (rw : DeviceIocRw) :
      (FileCall.ioctlExp filp cmd.code arg).Reads (some rw) ↔
        rw.rwAccessMode < mtcaSimpleWrite := by
    have hlocked : IoctlCmd.vectorRw.code ≠ IoctlCmd.lockedRead.code ∧
      IoctlCmd.singleIocAccess.code ≠ IoctlCmd.lockedRead.code := by decide
    rcases hcmd with rfl | rfl <;> simp [FileCall.Reads, hlocked]
  rcases hc with rfl | rfl | rfl | rfl | rfl
  · refine writeCase_sees hsize (fun request h => ?_) rfl fun _ => rfl
    rcases h with h | ⟨h | h, -⟩ <;> exact absurd h (by decide)
  · refine writeCase_sees hsize (fun request h => ?_) rfl fun _ => rfl
    rcases h with h | ⟨h | h, -⟩ <;> exact absurd h (by decide)
  · apply Sees.copy
    intro request
    cases request with
    | none => exact .ret _
    | some rw =>
      have hcode := validCode_correctedSize hsize rw.registerSize.toNat
      have hlocked : mtcaLockedRead < mtcaSimpleWrite := by decide
      have hread : Sees owner table dev (FileCall.ioctlExp filp IoctlCmd.lockedRead.code arg).Reads
          (fun s => s.request = some rw) (Direction.read.inline (rw.call dev
            (correctedSize (table dev) rw.registerSize.toNat) mtcaLockedRead rw.dataPtr 0)) :=
        inline_sees .read rfl hcode (fun _ => hlocked) fun s _ => iff_of_true (.inl rfl) rfl
      exact correctFrom_sees
        (withCritRegion_sees (hread.bind fun _ => .of_unseen (leaveWith_unseen _)))
  · refine .unseen trivial fun vector _ => ?_
    cases vector with
    | none => exact .ret _
    | some vector =>
      exact withCritRegion_sees ((vectorLoop_sees hsize _ _ _ (hmode (.inl rfl))).bind fun _ =>
        .of_unseen (leaveWith_unseen _))
  · exact singleIocAccess_sees hsize arg (hmode (.inr rfl))

/-- A data request starts a scratch check exactly if one of its reads sees all ones. -/
theorem dataRequest_sees {c : FileCall} (hc : c.IsDataRequest) (howner : owner c.filp = dev) :
    Sees owner table dev c.Reads P c.program := by
  have haccess (dir : Direction) {accessMode : UInt16} (dead refused : ℤ) (filp : File)
      (howner : owner filp = dev) (buf count fPosPtr fPos : UInt64)
      (hmode : dir = .read → accessMode < mtcaSimpleWrite)
      (hreads : ∀ request, c.Reads request ↔ dir = .read) :
      Sees owner table dev c.Reads P
        (accessExp dir accessMode dead refused filp buf count fPosPtr fPos) := by
    refine .unseen trivial fun d hd => .unseen trivial fun v _ => ?_
    obtain rfl : d = dev := hd.trans howner
    exact sees_ite (fun _ => .ret _) fun _ => withCritRegion_sees
      (accessBody_sees hsize dir refused buf count fPosPtr fPos hmode hreads)
  cases c with
  | readExp filp buf count fPosPtr fPos =>
    exact haccess .read eNoDev eIo filp howner buf count fPosPtr fPos (fun _ => by decide)
      fun _ => iff_of_true trivial rfl
  | writeExp filp buf count fPosPtr fPos =>
    exact haccess .write eFault eFault filp howner buf count fPosPtr fPos (fun h => by cases h)
      fun _ => iff_of_false id (by decide)
  | ioctlExp filp cmd arg =>
    obtain ⟨cmd, hmem, rfl⟩ := hc
    have herror : (accessError cmd.code arg).Only Unseen := by simp [accessError, Unseen, Op.Steady]
    refine .unseen trivial fun d hd => .unseen trivial fun v _ => ?_
    obtain rfl : d = dev := hd.trans howner
    refine sees_ite (fun _ => .ret _) fun _ => .bind_unseen herror fun err => ?_
    rw [IoctlCmd.decode_code]
    exact sees_ite (fun _ => .ret _) fun _ => ioctlCase_sees hsize arg hmem filp
  | openExp | releaseExp | llseek | remapMmapExp => exact hc.elim

end

end Upciedev
